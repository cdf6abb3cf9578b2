import Mathlib.Data.List.Sort
import Omnicore.Lib.Sql
import Omnicore.Query.DocumentFilter

/-!
# The search condition of a filter

The relational reader turns the filter of a request into a criteria expression, and the expression
into the search condition of a statement.  Probes are bound to placeholders; on an identity column
a text that is no identity refuses the read, and one that is may be bound in another spelling.  A
clause whose condition a null takes part in is unknown, so the statement drops the row.

## Main definitions

* `toExpr` : the criteria expression of a filter.
* `visit` : the search condition of an expression.
* `SqlDialect` : how a database reads identities and letters.
* `lift` : a clause with the probes as the database reads them.
* `unknown` : a null takes part in the search condition of a clause.
* `refused` : the relational reader has no statement for the clause.

## Main results

* `clause_renders`, `clause_reads` : a clause that is not refused keeps the rows it asks for, unless
  it is unknown on them.
* `toExpr_renders`, `toExpr_reads` : the same for a filter over root fields.
-/

namespace Omnicore.Queryschema

open List AssocMap Except Sql FilterClause

/-! ### Criteria expressions -/

/-- The operators of a criteria comparison. -/
inductive CriteriaOp where
  | opEq
  | opNe
  | opIn
  | opNin
  | opGt
  | opGte
  | opLt
  | opLte
  | opLike
  | opILike
  | opIsNull
  | opNotNull
  deriving DecidableEq, Repr

/-- The connectives of a criteria expression. -/
inductive LogicalOp where
  | logicalAnd
  | logicalOr
  deriving DecidableEq, Repr

/-- A criteria expression. -/
inductive Expr where
  | comparison (field : String) (op : CriteriaOp) (values : List Value)
  | logical (op : LogicalOp) (operands : List Expr)
  | negation (inner : Expr)

/-- Why a relational read is refused. -/
inductive ReadError where
  | unsupported (field : String)
  | carriesNoValue (op : FilterOp)
  | unknownField (field : String)
  | takesNoValues (op : CriteriaOp) (field : String) (got : ℕ)
  | requiresOneValue (op : CriteriaOp) (field : String) (got : ℕ)
  | unsupportedOperator (op : CriteriaOp)
  | noOperands (op : LogicalOp)
  | invalidFilterValue (field value : String)
  deriving DecidableEq, Repr

/-- The comparison of an ordinal or set operator. -/
def ordinalToExpr (field : String) (op : FilterOp) (values : List Value) : Except ReadError Expr :=
  match op, values with
  | .filterIn, values => .ok (.comparison field .opIn values)
  | .filterNin, values => .ok (.comparison field .opNin values)
  | op, [] => .error (.carriesNoValue op)
  | .filterNe, v :: _ => .ok (.comparison field .opNe [v])
  | .filterGt, v :: _ => .ok (.comparison field .opGt [v])
  | .filterGte, v :: _ => .ok (.comparison field .opGte [v])
  | .filterLt, v :: _ => .ok (.comparison field .opLt [v])
  | .filterLte, v :: _ => .ok (.comparison field .opLte [v])

/-- A text escaped for a pattern. -/
def escapeLike (s : String) : String := String.ofList (Sql.escapeLike s.toList)

/-- The pattern of a text predicate: the escaped text, anchored by the kind. -/
def likePattern (value : String) (kind : TextMatchKind) : String :=
  let esc := escapeLike value
  match kind with
  | .textPrefix => esc ++ "%"
  | .textContains => "%" ++ esc ++ "%"
  | .textExact => esc

/-- The operator of a text comparison. -/
def likeOp (caseInsensitive : Bool) : CriteriaOp := if caseInsensitive then .opILike else .opLike

/-- The comparison of a text predicate. -/
def textToExpr (field value : String) (kind : TextMatchKind) (ci negate : Bool) : Expr :=
  let e := Expr.comparison field (likeOp ci) [.str (likePattern value kind)]
  if negate then .negation e else e

/-- The disjunction of the comparisons with the members of a list. -/
def textListToExpr (field : String) (values : List String) (ci negate : Bool) : Expr :=
  let e := Expr.logical .logicalOr
    (values.map fun v => .comparison field (likeOp ci) [.str (escapeLike v)])
  if negate then .negation e else e

/-- The expression of one clause; a bare value is an equality. -/
def clauseToExpr (field : String) : FilterClause → Except ReadError Expr
  | .clause op values => ordinalToExpr field op values
  | .textMatch value kind ci negate => .ok (textToExpr field value kind ci negate)
  | .textMatchList values ci negate => .ok (textListToExpr field values ci negate)
  | .scalar v => .ok (.comparison field .opEq [v])

/-- The conjunction of some expressions: none for none, one for itself. -/
def conjunction : List Expr → Option Expr
  | [] => none
  | [e] => some e
  | es => some (.logical .logicalAnd es)

/-- The expression of the entry of a field. -/
def entryToExpr (field : String) : FilterEntry → Except ReadError (Option Expr)
  | .single c => do return some (← clauseToExpr field c)
  | .multiClause clauses => do return conjunction (← mapList (clauseToExpr field) clauses)

/-- A column of the root statement, and whether it holds an identity. -/
structure SqlColumn where
  name : String
  identity : Bool
  deriving DecidableEq, Repr

/-- The columns that the root statement offers, by Go field: those of the schema and those of the
declared joins. -/
abbrev RootFields := AssocMap String SqlColumn

/-- How a database reads the probes of a statement: the letters it folds, and the texts it takes for
an identity, each with the one it compares (the canonical text where the column holds UUIDs, the
text itself where it holds texts).  No wildcard occurs in an identity. -/
structure SqlDialect where
  fold : Char → Char
  readID : String → Option String
  plain : ∀ s t, readID s = some t →
    readLike s.toList = s.toList.map .lit ∧ readLike t.toList = t.toList.map .lit

variable (sql : SqlDialect) (fields : RootFields)

/-- The expression of a filter, by the sorted fields.  A field that the root statement does not
offer refuses the read. -/
def toExpr (filter : Filter) : Except ReadError (Option Expr) := do
  let ands ← mapList (fun p : String × FilterEntry =>
    if (get fields p.1).isSome then entryToExpr p.1 p.2 else .error (.unsupported p.1))
    (filter.insertionSort fun a b => a.1 ≤ b.1)
  return conjunction (ands.filterMap id)

/-! ### The search condition -/

/-- The value a placeholder is bound to; `none` is the null of SQL. -/
def bound : Value → Option Value
  | .null => none
  | v => some v

variable (field : String) (identity : Bool)

/-- Bind a probe.  On an identity column a text that is not empty has to be an identity. -/
def place (v : Value) : Except ReadError (Option Value) :=
  match identity, v with
  | true, .str s =>
    match sql.readID s with
    | some t => .ok (some (.str t))
    | none => if s = "" then .ok (some (.str s)) else .error (.invalidFilterValue field s)
  | _, v => .ok (bound v)

/-- The condition of an operator with one operand. -/
def binaryCond (op : CriteriaOp) (col : String) (rhs : Option Value) :
    Except ReadError (Cond String Value) :=
  match op with
  | .opILike => .ok (.like (letterCase sql.fold true) col rhs)
  | .opLike => .ok (.like (letterCase sql.fold false) col rhs)
  | .opEq => .ok (.compare .eq col rhs)
  | .opNe => .ok (.compare .ne col rhs)
  | .opGt => .ok (.compare .gt col rhs)
  | .opGte => .ok (.compare .ge col rhs)
  | .opLt => .ok (.compare .lt col rhs)
  | .opLte => .ok (.compare .le col rhs)
  | _ => .error (.unsupportedOperator op)

/-- The condition of a comparison. -/
def visitComparison (op : CriteriaOp) (values : List Value) :
    Except ReadError (Cond String Value) :=
  match get fields field with
  | none => .error (.unknownField field)
  | some col =>
    let operand := place sql field col.identity
    match op with
    | .opIsNull =>
      if values ≠ [] then .error (.takesNoValues op field values.length) else .ok (.isNull col.name)
    | .opNotNull =>
      if values ≠ [] then .error (.takesNoValues op field values.length)
      else .ok (.isNotNull col.name)
    -- SQL has no empty list
    | .opIn =>
      if values = [] then .ok (.const false)
      else do return .inList col.name (← mapList operand values)
    | .opNin =>
      if values = [] then .ok (.const true)
      else do return .notInList col.name (← mapList operand values)
    | op =>
      match values with
      | [v] => do binaryCond sql op col.name (← operand v)
      | _ => .error (.requiresOneValue op field values.length)

/-- The condition of a connective over the conditions of its operands. -/
def visitLogical (op : LogicalOp) (cs : List (Cond String Value)) : Cond String Value :=
  match op with
  | .logicalAnd => .and cs
  | .logicalOr => .or cs

mutual

/-- The search condition of an expression. -/
def visit (sql : SqlDialect) (fields : RootFields) :
    Expr → Except ReadError (Cond String Value)
  | .comparison field op values => visitComparison sql fields field op values
  | .logical op [] => .error (.noOperands op)
  | .logical op (e :: es) => do return visitLogical op (← visitAll sql fields (e :: es))
  | .negation inner => do return .not (← visit sql fields inner)

/-- The search conditions of some expressions. -/
def visitAll (sql : SqlDialect) (fields : RootFields) :
    List Expr → Except ReadError (List (Cond String Value))
  | [] => .ok []
  | e :: es => do
    let c ← visit sql fields e
    let cs ← visitAll sql fields es
    return c :: cs

end

/-! ### Rows -/

/-- A row, by column. -/
structure Row where
  id : String
  column : String → Value
  scalar : ∀ c, isScalar (column c) = true

/-- The order and the texts of SQL values. -/
def sqlDomain : Domain Value where
  lt := below
  text
    | .str s => some s.toList
    | _ => none

/-- The truth of a search condition on a row. -/
def Row.truth (r : Row) (c : Cond String Value) : Truth :=
  c.eval sqlDomain fun col => bound (r.column col)

/-- The field of the document that mirrors a row. -/
def Row.mirror (r : Row) (fields : RootFields) (field : String) : Value :=
  match get fields field with
  | some col => r.column col.name
  | none => .null

/-! ### Clauses that a null takes part in, and refused ones -/

/-- A text as the database reads it: an identity on an identity column, itself elsewhere. -/
def liftText (s : String) : String := if identity then (sql.readID s).getD s else s

/-- A probe as the database reads it. -/
def liftValue : Value → Value
  | .str s => .str (liftText sql identity s)
  | v => v

/-- A clause with the probes as the database reads them. -/
def lift : FilterClause → FilterClause
  | .scalar v => .scalar (liftValue sql identity v)
  | .clause op values => .clause op (values.map (liftValue sql identity))
  | .textMatch value kind ci negate => .textMatch (liftText sql identity value) kind ci negate
  | .textMatchList values ci negate =>
    .textMatchList (values.map (liftText sql identity)) ci negate

/-- A probe that cannot be bound: a text that is not an identity, on an identity column. -/
def malformed : Value → Bool
  | .str s => identity && s ≠ "" && (sql.readID s).isNone
  | _ => false

/-- A null takes part in the search condition of the clause. -/
def unknown : FilterClause → Value → Bool
  | .scalar v, x => x = .null || v = .null
  | .clause _ [], _ => false
  | .clause op (v :: values), x =>
    match op with
    | .filterIn => x = .null
    | .filterNin => x = .null || .null ∈ v :: values
    | _ => x = .null || v = .null
  | .textMatch .., x => x = .null
  | .textMatchList .., x => x = .null

/-- The relational reader has no statement for the clause. -/
def refused : FilterClause → Bool
  | .scalar v => malformed sql identity v
  | .clause .filterIn values | .clause .filterNin values => values.any (malformed sql identity)
  | .clause _ [] => true
  | .clause _ (v :: _) => malformed sql identity v
  | .textMatch value kind _ _ => malformed sql identity (.str (likePattern value kind))
  | .textMatchList values _ _ =>
    values.isEmpty || values.any fun v => malformed sql identity (.str (escapeLike v))

theorem readLike_likePattern (value : String) (kind : TextMatchKind) :
    readLike (likePattern value kind).toList = match kind with
      | .textPrefix => value.toList.map .lit ++ [.anyText]
      | .textContains => .anyText :: (value.toList.map .lit ++ [.anyText])
      | .textExact => value.toList.map .lit := by
  cases kind with
  | textPrefix | textContains =>
    simpa [likePattern, escapeLike, readLike] using readLike_escapeLike ['%']
  | textExact => simpa [likePattern, escapeLike, readLike] using readLike_escapeLike []

theorem likePattern_matches (fold : Char → Char) (value s : String) (kind : TextMatchKind)
    (ci : Bool) :
    LikeToken.matches (letterCase fold ci) (readLike (likePattern value kind).toList) s.toList =
      meets fold kind ci value (.str s) := by
  rw [Bool.eq_iff_iff, readLike_likePattern]
  cases kind with
  | textPrefix => rw [matches_lits_anyText, meets_prefix]
  | textContains =>
    rw [LikeToken.matches, any_eq_true, meets_contains]
    simp [matches_lits_anyText]
  | textExact => rw [matches_exact, meets_exact]

/-! ### The reading of a statement -/

section

variable {sql : SqlDialect} {fields : RootFields}

variable (sql) in
/-- The operand a probe is bound to. -/
def probe (identity : Bool) (v : Value) : Option Value := bound (liftValue sql identity v)

variable {b ci identity : Bool} {op : CriteriaOp} {es : List Expr} {values : List Value}
  {o : Option Expr} {mk : Option Value → Cond String Value} {r : Row}
  {c : Cond String Value} {v x : Value}

theorem place_ok {field : String} {o : Option Value} :
    place sql field identity v = .ok o ↔
      malformed sql identity v = false ∧ o = probe sql identity v := by
  have hok : ∀ o', (.ok o' : Except ReadError (Option Value)) = .ok o ↔ o = o' := fun o' =>
    ⟨fun h => (ok.inj h).symm, fun h => congrArg _ h.symm⟩
  cases v with
  | str s =>
    cases identity with
    | false => simp [place, bound, malformed, probe, liftValue, liftText, hok]
    | true =>
      cases hr : sql.readID s with
      | some t => simp [place, bound, malformed, probe, liftValue, liftText, hr, hok]
      | none =>
        by_cases hs : s = ""
        · subst hs
          simp [place, bound, malformed, probe, liftValue, liftText, hr, hok]
        · simp [place, malformed, hr, hs]
  | _ => cases identity <;> simp [place, bound, malformed, probe, liftValue, hok]

theorem mapList_place_ok {field : String} {os : List (Option Value)} :
    mapList (place sql field identity) values = .ok os ↔
      values.any (malformed sql identity) = false ∧ os = values.map (probe sql identity) := by
  constructor
  · intro h
    have hall : ∀ v ∈ values, malformed sql identity v = false := fun v hv => by
      obtain ⟨o, ho⟩ := mapList_succeeds.1 ⟨os, h⟩ v hv
      exact (place_ok.1 ho).1
    refine ⟨by simpa using hall, ?_⟩
    have hmap : mapList (place sql field identity) values = .ok (values.map (probe sql identity)) :=
      mapList_ok fun v hv => place_ok.2 ⟨hall v hv, rfl⟩
    exact ok.inj (h.symm.trans hmap)
  · rintro ⟨h, rfl⟩
    exact mapList_ok fun v hv => place_ok.2 ⟨by simpa using any_eq_false.1 h v hv, rfl⟩

variable (sql fields) in
/-- The expression has a search condition. -/
def Renders (e : Expr) : Prop := ∃ c, visit sql fields e = .ok c

variable (sql fields) in
/-- The expression has a search condition, which is true on the row, or false. -/
def Reads (e : Expr) (r : Row) (b : Bool) : Prop :=
  ∃ c, visit sql fields e = .ok c ∧ r.truth c = some b

variable {e : Expr}

theorem reads_of_visit (h : visit sql fields e = .ok c) :
    Reads sql fields e r b ↔ r.truth c = some b := by
  constructor
  · rintro ⟨c', hc', ht⟩
    rwa [ok.inj (h.symm.trans hc')]
  · exact fun ht => ⟨c, h, ht⟩

theorem visitAll_eq_mapList : visitAll sql fields es = mapList (visit sql fields) es := by
  induction es with
  | nil => rfl
  | cons e es ih => rw [visitAll, ih, mapList]

theorem visit_logical {op : LogicalOp} :
    visit sql fields (.logical op es) = .ok c ↔
      es ≠ [] ∧ ∃ cs, mapList (visit sql fields) es = .ok cs ∧ visitLogical op cs = c := by
  cases es with
  | nil => simp [visit]
  | cons e es =>
    rw [visit, bind_ok, visitAll_eq_mapList]
    simp [pure_ok]

theorem renders_logical {op : LogicalOp} :
    Renders sql fields (.logical op es) ↔ es ≠ [] ∧ ∀ e ∈ es, Renders sql fields e := by
  simp only [Renders, visit_logical, ← mapList_succeeds]
  constructor
  · rintro ⟨c, hne, cs, hcs, -⟩
    exact ⟨hne, cs, hcs⟩
  · rintro ⟨hne, cs, hcs⟩
    exact ⟨_, hne, cs, hcs, rfl⟩

theorem forall_conds {cs : List (Cond String Value)}
    (h : mapList (visit sql fields) es = .ok cs) :
    (∀ c ∈ cs, r.truth c = some b) ↔ ∀ e ∈ es, Reads sql fields e r b := by
  exact mapList_forall h fun _ _ _ _ hc => (reads_of_visit hc).symm

theorem reads_all (op : LogicalOp) (b : Bool)
    (hop : ∀ cs, r.truth (visitLogical op cs) = some b ↔ ∀ c ∈ cs, r.truth c = some b) :
    Reads sql fields (.logical op es) r b ↔ es ≠ [] ∧ ∀ e ∈ es, Reads sql fields e r b := by
  constructor
  · rintro ⟨c, hc, ht⟩
    obtain ⟨hne, cs, hcs, rfl⟩ := visit_logical.1 hc
    exact ⟨hne, (forall_conds hcs).1 ((hop cs).1 ht)⟩
  · rintro ⟨hne, hall⟩
    obtain ⟨cs, hcs⟩ := mapList_succeeds.2 fun e he => (hall e he).imp fun _ h => h.1
    exact ⟨_, visit_logical.2 ⟨hne, cs, hcs, rfl⟩, (hop cs).2 ((forall_conds hcs).2 hall)⟩

theorem reads_or_true (h : ∀ e ∈ es, Renders sql fields e) :
    Reads sql fields (.logical .logicalOr es) r true ↔
      ∃ e ∈ es, Reads sql fields e r true := by
  obtain ⟨cs, hcs⟩ := mapList_succeeds.2 h
  constructor
  · rintro ⟨c, hc, ht⟩
    obtain ⟨-, cs', hcs', rfl⟩ := visit_logical.1 hc
    obtain ⟨c, hc, ht⟩ := Cond.eval_or_true.1 ht
    obtain ⟨e, he, hv⟩ := (mem_mapList hcs').1 hc
    exact ⟨e, he, c, hv, ht⟩
  · rintro ⟨e, he, c, hc, ht⟩
    exact ⟨.or cs, visit_logical.2 ⟨ne_nil_of_mem he, cs, hcs, rfl⟩,
      Cond.eval_or_true.2 ⟨c, (mem_mapList hcs).2 ⟨e, he, hc⟩, ht⟩⟩

theorem renders_not : Renders sql fields (.negation e) ↔ Renders sql fields e := by
  simp only [Renders, visit, bind_ok, pure_ok]
  exact ⟨fun ⟨_, c, hc, _⟩ => ⟨c, hc⟩, fun ⟨c, hc⟩ => ⟨_, c, hc, rfl⟩⟩

theorem reads_not :
    Reads sql fields (.negation e) r true ↔ Reads sql fields e r false := by
  simp only [Reads, visit, bind_ok, pure_ok]
  constructor
  · rintro ⟨_, ⟨c, hc, rfl⟩, ht⟩
    exact ⟨c, hc, Truth.not_true_iff.1 ht⟩
  · rintro ⟨c, hc, ht⟩
    exact ⟨.not c, ⟨c, hc, rfl⟩, Truth.not_true_iff.2 ht⟩

/-! ### One comparison -/

variable {field : String} {col : SqlColumn}

theorem bound_eq_some {y : Value} : bound x = some y ↔ x ≠ .null ∧ x = y := by
  cases x <;> simp [bound]

theorem liftValue_eq_null : liftValue sql identity v = .null ↔ v = .null := by
  cases v <;> simp [liftValue]

variable (hcol : get fields field = some col)
include hcol

section

variable (hop : ∀ rhs, binaryCond sql op col.name rhs = .ok (mk rhs))
include hop

theorem visit_one :
    visit sql fields (.comparison field op [v]) = .ok c ↔
      malformed sql col.identity v = false ∧ mk (probe sql col.identity v) = c := by
  have hvisit : visit sql fields (.comparison field op [v]) =
      (place sql field col.identity v >>= binaryCond sql op col.name) := by
    rw [visit, visitComparison, hcol]
    cases op with
    | opIsNull | opNotNull | opIn | opNin => cases hop none
    | _ => rfl
  rw [hvisit, bind_ok]
  simp only [place_ok, hop, ok.injEq]
  constructor
  · rintro ⟨_, ⟨hm, rfl⟩, rfl⟩
    exact ⟨hm, rfl⟩
  · rintro ⟨hm, rfl⟩
    exact ⟨_, ⟨hm, rfl⟩, rfl⟩

theorem renders_one :
    Renders sql fields (.comparison field op [v]) ↔ malformed sql col.identity v = false := by
  simp [Renders, visit_one hcol hop]

theorem reads_one :
    Reads sql fields (.comparison field op [v]) r b ↔
      malformed sql col.identity v = false ∧ r.truth (mk (probe sql col.identity v)) = some b := by
  simp only [Reads, visit_one hcol hop]
  constructor
  · rintro ⟨_, ⟨hm, rfl⟩, ht⟩
    exact ⟨hm, ht⟩
  · rintro ⟨hm, ht⟩
    exact ⟨_, ⟨hm, rfl⟩, ht⟩

end

omit hcol

theorem compare_probe {op : CompareOp} :
    compare sqlDomain op (bound x) (probe sql identity v) = some b ↔
      (x ≠ .null ∧ v ≠ .null) ∧ op.holds sqlDomain x (liftValue sql identity v) = b := by
  by_cases hx : x = .null
  · simp [hx, bound, Sql.compare]
  · rw [bound_eq_some.2 ⟨hx, rfl⟩, probe]
    by_cases hv : v = .null
    · simp [hv, liftValue, bound, Sql.compare]
    · rw [bound_eq_some.2 ⟨fun h => hv (liftValue_eq_null.1 h), rfl⟩]
      simp [Sql.compare, hx, hv]

/-- A pattern that is bound on an identity column is a whole text without wildcards. -/
theorem liftText_likePattern {value : String} {kind : TextMatchKind}
    (hm : malformed sql identity (.str (likePattern value kind)) = false) (s : String) :
    LikeToken.matches (letterCase sql.fold ci)
        (readLike (liftText sql identity (likePattern value kind)).toList) s.toList =
      meets sql.fold kind ci (liftText sql identity value) (.str s) := by
  cases identity with
  | false => exact likePattern_matches sql.fold value s kind ci
  | true =>
    have hread := readLike_likePattern value kind
    cases hr : sql.readID (likePattern value kind) with
    | none =>
      have hempty : likePattern value kind = "" := by simpa [malformed, hr] using hm
      rw [hempty] at hread hr
      cases kind with
      | textPrefix | textContains => simp [readLike] at hread
      | textExact =>
        have hv : value = "" := by simpa [readLike] using hread
        subst hv
        simpa [liftText, hempty, hr] using likePattern_matches sql.fold "" s .textExact ci
    | some t =>
      obtain ⟨hp, ht⟩ := sql.plain _ t hr
      rw [hp] at hread
      cases kind with
      | textPrefix | textContains =>
        have hmem := congrArg (LikeToken.anyText ∈ ·) hread
        simp at hmem
      | textExact =>
        have hlit : Function.Injective LikeToken.lit := fun _ _ h => LikeToken.lit.inj h
        have hsame : likePattern value .textExact = value :=
          String.toList_injective (map_injective_iff.2 hlit hread)
        rw [hsame] at hr ⊢
        rw [Bool.eq_iff_iff, meets_exact, ← matches_exact]
        simp [liftText, hr, ht]

theorem like_probe {value : String} {kind : TextMatchKind}
    (hm : malformed sql identity (.str (likePattern value kind)) = false) :
    like sqlDomain (letterCase sql.fold ci) (bound x)
        (probe sql identity (.str (likePattern value kind))) = some b ↔
      x ≠ .null ∧ meets sql.fold kind ci (liftText sql identity value) x = b := by
  by_cases hx : x = .null
  · simp [hx, bound, like]
  · rw [bound_eq_some.2 ⟨hx, rfl⟩, probe, liftValue]
    cases x with
    | str s => simp [like, bound, sqlDomain, liftText_likePattern hm]
    | null => exact absurd rfl hx
    | _ => simp [like, bound, sqlDomain, meets]

theorem inList_probe :
    Truth.any ((values.map (probe sql identity)).map (compare sqlDomain .eq (bound x))) =
      some true ↔ x ∈ values.map (liftValue sql identity) ∧ x ≠ .null := by
  rw [Truth.any_true_iff, map_map]
  simp only [mem_map, exists_exists_and_eq_and, Function.comp_apply, compare_probe,
    CompareOp.holds, decide_eq_true_eq]
  constructor
  · rintro ⟨v, hv, ⟨hx, -⟩, rfl⟩
    exact ⟨⟨v, hv, rfl⟩, hx⟩
  · rintro ⟨⟨v, hv, rfl⟩, hx⟩
    exact ⟨v, hv, ⟨hx, fun h => hx (liftValue_eq_null.2 h)⟩, rfl⟩

theorem notInList_probe (hne : values ≠ []) :
    Truth.any ((values.map (probe sql identity)).map (compare sqlDomain .eq (bound x))) =
      some false ↔ (x ≠ .null ∧ .null ∉ values) ∧ x ∉ values.map (liftValue sql identity) := by
  rw [Truth.any_false_iff, map_map, forall_mem_map]
  simp only [Function.comp_apply, compare_probe, CompareOp.holds, decide_eq_false_iff_not, mem_map,
    not_exists, not_and]
  constructor
  · intro h
    obtain ⟨v, hv⟩ := exists_mem_of_ne_nil values hne
    exact ⟨⟨(h v hv).1.1, fun hnull => (h .null hnull).1.2 rfl⟩,
      fun w hw he => (h w hw).2 he.symm⟩
  · rintro ⟨⟨hx, hnull⟩, hmem⟩ v hv
    exact ⟨⟨hx, fun he => hnull (he ▸ hv)⟩, fun he => hmem v hv he.symm⟩

/-! ### One clause -/

theorem binaryCond_likeOp (name : String) (rhs : Option Value) :
    binaryCond sql (likeOp ci) name rhs =
      .ok (.like (letterCase sql.fold ci) name rhs) := by
  cases ci <;> rfl

include hcol

theorem visit_list :
    (visit sql fields (.comparison field .opIn (v :: values)) = .ok c ↔
      (v :: values).any (malformed sql col.identity) = false ∧
        .inList col.name ((v :: values).map (probe sql col.identity)) = c) ∧
    (visit sql fields (.comparison field .opNin (v :: values)) = .ok c ↔
      (v :: values).any (malformed sql col.identity) = false ∧
        .notInList col.name ((v :: values).map (probe sql col.identity)) = c) := by
  simp only [visit, visitComparison, hcol, reduceCtorEq, if_false, bind_ok, pure_ok,
    mapList_place_ok]
  constructor
  all_goals
    constructor
    · rintro ⟨_, ⟨hm, rfl⟩, rfl⟩
      exact ⟨hm, rfl⟩
    · rintro ⟨hm, rfl⟩
      exact ⟨_, ⟨hm, rfl⟩, rfl⟩

theorem reads_in (hr : Renders sql fields (.comparison field .opIn (v :: values))) (r : Row) :
    Reads sql fields (.comparison field .opIn (v :: values)) r true ↔
      r.column col.name ∈ (v :: values).map (liftValue sql col.identity) ∧
        r.column col.name ≠ .null := by
  obtain ⟨c, hc⟩ := hr
  obtain ⟨hm, rfl⟩ := (visit_list hcol).1.1 hc
  rw [← inList_probe]
  exact reads_of_visit hc

theorem reads_nin (hr : Renders sql fields (.comparison field .opNin (v :: values))) (r : Row) :
    Reads sql fields (.comparison field .opNin (v :: values)) r true ↔
      (r.column col.name ≠ .null ∧ .null ∉ v :: values) ∧
        r.column col.name ∉ (v :: values).map (liftValue sql col.identity) := by
  obtain ⟨c, hc⟩ := hr
  obtain ⟨hm, rfl⟩ := (visit_list hcol).2.1 hc
  rw [← notInList_probe (cons_ne_nil v values), ← Truth.not_true_iff]
  exact reads_of_visit hc

theorem reads_ordinal {cmp : CompareOp}
    (hop : ∀ rhs, binaryCond sql op col.name rhs = .ok (.compare cmp col.name rhs))
    (hr : Renders sql fields (.comparison field op [v])) (r : Row) :
    Reads sql fields (.comparison field op [v]) r true ↔
      cmp.holds sqlDomain (r.column col.name) (liftValue sql col.identity v) = true ∧
        (decide (r.column col.name = .null) || decide (v = .null)) = false := by
  rw [reads_one hcol hop, Row.truth, Cond.eval, compare_probe]
  simp [(renders_one hcol hop).1 hr, and_comm, and_assoc]

theorem reads_like {value : String} {kind : TextMatchKind}
    (hr : Renders sql fields (.comparison field (likeOp ci) [.str (likePattern value kind)]))
    (r : Row) :
    Reads sql fields (.comparison field (likeOp ci) [.str (likePattern value kind)]) r b ↔
      meets sql.fold kind ci (liftText sql col.identity value) (r.column col.name) = b ∧
        r.column col.name ≠ .null := by
  have hm := (renders_one hcol (binaryCond_likeOp col.name)).1 hr
  rw [reads_one hcol (binaryCond_likeOp col.name), Row.truth, Cond.eval, like_probe hm]
  simp [hm, and_comm]

theorem reads_whole {v : String}
    (hr : Renders sql fields (.comparison field (likeOp ci) [.str (escapeLike v)])) (r : Row) :
    Reads sql fields (.comparison field (likeOp ci) [.str (escapeLike v)]) r b ↔
      meets sql.fold .textExact ci (liftText sql col.identity v) (r.column col.name) = b ∧
        r.column col.name ≠ .null := by
  have h : escapeLike v = likePattern v .textExact := rfl
  rw [h] at hr ⊢
  exact reads_like hcol hr r

theorem clause_renders (c : FilterClause) :
    (∃ e, clauseToExpr field c = .ok e ∧ Renders sql fields e) ↔
      refused sql col.identity c = false := by
  have hlike : ∀ p ci, Renders sql fields (.comparison field (likeOp ci) [.str p]) ↔
      malformed sql col.identity (.str p) = false := fun p ci =>
    renders_one hcol (binaryCond_likeOp col.name)
  cases c with
  | scalar v =>
    simp only [clauseToExpr, refused, ok.injEq, exists_eq_left']
    exact renders_one hcol fun _ => rfl
  | clause op values =>
    cases values with
    | nil =>
      cases op <;>
        simp [clauseToExpr, ordinalToExpr, refused, Renders, visit, visitComparison, hcol]
    | cons v values =>
      cases op with
      | filterIn => simp [clauseToExpr, ordinalToExpr, refused, Renders, (visit_list hcol).1]
      | filterNin => simp [clauseToExpr, ordinalToExpr, refused, Renders, (visit_list hcol).2]
      | _ =>
        simp only [clauseToExpr, ordinalToExpr, refused, ok.injEq, exists_eq_left']
        exact renders_one hcol fun _ => rfl
  | textMatch value kind ci negate =>
    cases negate <;> simp [clauseToExpr, textToExpr, refused, renders_not, hlike]
  | textMatchList values ci negate =>
    cases negate <;>
      simp [clauseToExpr, textListToExpr, refused, renders_not, renders_logical, hlike]

/-- A list of texts is met when one of them is. -/
theorem reads_textList {values : List String}
    (hr : Renders sql fields (textListToExpr field values ci false)) (r : Row) :
    Reads sql fields (textListToExpr field values ci false) r true ↔
      (∃ v ∈ values,
        meets sql.fold .textExact ci (liftText sql col.identity v) (r.column col.name) = true) ∧
        r.column col.name ≠ .null := by
  rw [textListToExpr, if_neg Bool.false_ne_true] at hr ⊢
  have hall := (renders_logical.1 hr).2
  rw [reads_or_true hall]
  rw [forall_mem_map] at hall
  simp only [mem_map, exists_exists_and_eq_and]
  rw [exists_congr fun v => and_congr_right fun hv => reads_whole hcol (hall v hv) r]
  simp only [← and_assoc, exists_and_right]

/-- A negated list is met when none of its texts is; the list is not empty, so a null takes part. -/
theorem reads_textList_not {values : List String}
    (hr : Renders sql fields (textListToExpr field values ci true)) (r : Row) :
    Reads sql fields (textListToExpr field values ci true) r true ↔
      (∀ v ∈ values,
        meets sql.fold .textExact ci (liftText sql col.identity v) (r.column col.name) = false) ∧
        r.column col.name ≠ .null := by
  rw [textListToExpr, if_pos rfl] at hr ⊢
  obtain ⟨hne, hall⟩ := renders_logical.1 (renders_not.1 hr)
  rw [reads_not, reads_all .logicalOr false fun _ => Cond.eval_or_false, and_iff_right hne]
  rw [forall_mem_map] at hall ⊢
  rw [forall₂_congr fun v hv => reads_whole hcol (hall v hv) r]
  obtain ⟨v, hv⟩ := exists_mem_of_ne_nil values (by simpa using hne)
  exact ⟨fun h => ⟨fun w hw => (h w hw).1, (h v hv).2⟩, fun h w hw => ⟨h.1 w hw, h.2⟩⟩

/-- **One clause of a statement.**  It keeps the rows it asks for, unless a null takes part. -/
theorem clause_reads {c : FilterClause}
    (he : clauseToExpr field c = .ok e) (hr : Renders sql fields e) (r : Row) :
    Reads sql fields e r true ↔
      asks sql.fold (lift sql col.identity c) (r.column col.name) = true ∧
        unknown c (r.column col.name) = false := by
  cases c with
  | scalar v =>
    cases he
    rw [reads_ordinal hcol (fun _ => rfl) hr]
    simp [asks, lift, unknown, CompareOp.holds]
  | clause op values =>
    cases values with
    | nil =>
      cases op with
      | filterIn | filterNin =>
        cases he
        simp [Reads, visit, visitComparison, hcol, Row.truth, Cond.eval, asks, lift, unknown]
      | _ => cases he
    | cons v values =>
      cases op with
      | filterIn =>
        cases he
        rw [reads_in hcol hr]
        simp [asks, lift, unknown]
      | filterNin =>
        cases he
        rw [reads_nin hcol hr]
        simp [asks, lift, unknown]
        tauto
      | _ =>
        cases he
        rw [reads_ordinal hcol (fun _ => rfl) hr]
        simp [asks, lift, unknown, CompareOp.holds, sqlDomain]
  | textMatch value kind ci negate =>
    cases he
    cases negate with
    | false =>
      rw [textToExpr, if_neg Bool.false_ne_true] at hr ⊢
      rw [reads_like hcol hr]
      simp [asks, lift, unknown]
    | true =>
      rw [textToExpr, if_pos rfl] at hr ⊢
      rw [reads_not, reads_like hcol (renders_not.1 hr)]
      simp [asks, lift, unknown]
  | textMatchList values ci negate =>
    cases he
    cases negate with
    | false =>
      rw [reads_textList hcol hr]
      simp [asks, lift, unknown]
    | true =>
      rw [reads_textList_not hcol hr]
      simp [asks, lift, unknown]

/-! ### The whole filter -/

omit hcol

theorem renders_conjunction :
    (∀ e ∈ conjunction es, Renders sql fields e) ↔ ∀ e ∈ es, Renders sql fields e := by
  match es with
  | [] => simp [conjunction]
  | [e] => simp [conjunction]
  | e :: e' :: es => simp [conjunction, renders_logical]

theorem reads_conjunction :
    (∀ e ∈ conjunction es, Reads sql fields e r true) ↔
      ∀ e ∈ es, Reads sql fields e r true := by
  match es with
  | [] => simp [conjunction]
  | [e] => simp [conjunction]
  | e :: e' :: es => simp [conjunction, reads_all .logicalAnd true fun _ => Cond.eval_and]

theorem entryToExpr_ok {entry : FilterEntry} :
    entryToExpr field entry = .ok o ↔
      ∃ es, mapList (clauseToExpr field) entry.clauses = .ok es ∧ conjunction es = o := by
  cases entry with
  | single c =>
    simp only [entryToExpr, FilterEntry.clauses, mapList, bind_ok, pure_ok, ok.injEq]
    constructor
    · rintro ⟨e, he, rfl⟩
      exact ⟨[e], ⟨e, he, [], rfl, rfl⟩, rfl⟩
    · rintro ⟨_, ⟨e, he, _, rfl, rfl⟩, rfl⟩
      exact ⟨e, he, rfl⟩
  | multiClause clauses =>
    rw [entryToExpr, bind_ok]
    simp [pure_ok, FilterEntry.clauses]

theorem entry_renders (hcol : get fields field = some col) (entry : FilterEntry) :
    (∃ o, entryToExpr field entry = .ok o ∧ ∀ e ∈ o, Renders sql fields e) ↔
      ∀ c ∈ entry.clauses, refused sql col.identity c = false := by
  simp only [← clause_renders hcol, ← mapList_all, entryToExpr_ok]
  constructor
  · rintro ⟨_, ⟨es, hes, rfl⟩, hr⟩
    exact ⟨es, hes, renders_conjunction.1 hr⟩
  · rintro ⟨es, hes, hr⟩
    exact ⟨_, ⟨es, hes, rfl⟩, renders_conjunction.2 hr⟩

theorem entry_reads (hcol : get fields field = some col) {entry : FilterEntry}
    (ho : entryToExpr field entry = .ok o) (hr : ∀ e ∈ o, Renders sql fields e) :
    (∀ e ∈ o, Reads sql fields e r true) ↔ ∀ c ∈ entry.clauses,
      asks sql.fold (lift sql col.identity c) (r.column col.name) = true ∧
        unknown c (r.column col.name) = false := by
  obtain ⟨es, hes, rfl⟩ := entryToExpr_ok.1 ho
  rw [renders_conjunction] at hr
  rw [reads_conjunction]
  exact mapList_forall hes fun c _ e hmem he => clause_reads hcol he (hr e hmem) r

/-- The column of a field holds an identity. -/
def identityOf (fields : RootFields) (field : String) : Bool :=
  (get fields field).any SqlColumn.identity

variable {filter : Filter}

theorem toExpr_ok (hroot : ∀ p ∈ filter, (get fields p.1).isSome) :
    toExpr fields filter = .ok o ↔
      ∃ ands, mapList (fun p : String × FilterEntry => entryToExpr p.1 p.2)
        (filter.insertionSort fun a b => a.1 ≤ b.1) = .ok ands ∧
          conjunction (ands.filterMap id) = o := by
  rw [toExpr, bind_ok]
  simp only [pure_ok]
  rw [mapList_congr fun p hp => if_pos (hroot p ((mem_insertionSort _).1 hp))]

theorem mem_filterMap_id {os : List (Option Expr)} {P : Expr → Prop} :
    (∀ e ∈ os.filterMap id, P e) ↔ ∀ o ∈ os, ∀ e ∈ o, P e := by
  simp only [mem_filterMap, id_eq, Option.mem_def]
  exact ⟨fun h o ho e he => h e ⟨o, ho, he⟩, fun h e ⟨o, ho, he⟩ => h o ho e he⟩

/-- A filter over root fields has a search condition when none of its clauses is refused. -/
theorem toExpr_renders (hroot : ∀ p ∈ filter, (get fields p.1).isSome) :
    (∃ o, toExpr fields filter = .ok o ∧ ∀ e ∈ o, Renders sql fields e) ↔
      ∀ p ∈ clausesOf filter, refused sql (identityOf fields p.1) p.2 = false := by
  rw [forall_clausesOf (P := fun f c => refused sql (identityOf fields f) c = false)]
  have hentry : ∀ p ∈ filter,
      ((∃ o, entryToExpr p.1 p.2 = .ok o ∧ ∀ e ∈ o, Renders sql fields e) ↔
        ∀ c ∈ p.2.clauses, refused sql (identityOf fields p.1) c = false) := by
    intro p hp
    obtain ⟨col, hcol⟩ := Option.isSome_iff_exists.1 (hroot p hp)
    have hid : identityOf fields p.1 = col.identity := by simp [identityOf, hcol]
    rw [hid]
    exact entry_renders hcol p.2
  rw [← forall₂_congr hentry]
  have hsort : ∀ P : String × FilterEntry → Prop, (∀ p ∈ filter, P p) ↔
      ∀ p ∈ filter.insertionSort fun a b => a.1 ≤ b.1, P p := fun P => by
    simp
  rw [hsort, ← mapList_all]
  simp only [toExpr_ok hroot]
  constructor
  · rintro ⟨_, ⟨ands, hands, rfl⟩, hr⟩
    exact ⟨ands, hands, mem_filterMap_id.1 (renders_conjunction.1 hr)⟩
  · rintro ⟨ands, hands, hr⟩
    exact ⟨_, ⟨ands, hands, rfl⟩, renders_conjunction.2 (mem_filterMap_id.2 hr)⟩

/-- The search condition keeps the rows that every clause asks for, unless a null takes part. -/
theorem toExpr_reads (hroot : ∀ p ∈ filter, (get fields p.1).isSome)
    (ho : toExpr fields filter = .ok o) (hr : ∀ e ∈ o, Renders sql fields e) (r : Row) :
    (∀ e ∈ o, Reads sql fields e r true) ↔ ∀ p ∈ clausesOf filter,
      asks sql.fold (lift sql (identityOf fields p.1) p.2) (r.mirror fields p.1) = true ∧
        unknown p.2 (r.mirror fields p.1) = false := by
  rw [forall_clausesOf (P := fun f c => asks sql.fold (lift sql (identityOf fields f) c)
    (r.mirror fields f) = true ∧ unknown c (r.mirror fields f) = false)]
  obtain ⟨ands, hands, rfl⟩ := (toExpr_ok hroot).1 ho
  rw [renders_conjunction, mem_filterMap_id] at hr
  rw [reads_conjunction, mem_filterMap_id]
  have hentry := mapList_forall (Q := fun o : Option Expr => ∀ e ∈ o, Reads sql fields e r true)
    (P := fun p : String × FilterEntry => ∀ c ∈ p.2.clauses,
      asks sql.fold (lift sql (identityOf fields p.1) c) (r.mirror fields p.1) = true ∧
        unknown c (r.mirror fields p.1) = false) hands ?_
  · simpa only [mem_insertionSort] using hentry
  · intro p hp o hmem ho
    obtain ⟨col, hcol⟩ := Option.isSome_iff_exists.1 (hroot p ((mem_insertionSort _).1 hp))
    have hid : identityOf fields p.1 = col.identity := by simp [identityOf, hcol]
    have hx : r.mirror fields p.1 = r.column col.name := by simp [Row.mirror, hcol]
    rw [hid, hx]
    exact entry_reads hcol ho (hr o hmem)

end

end Omnicore.Queryschema
