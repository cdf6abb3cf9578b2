import Omnicore.Hydrate.Merge
import Omnicore.Query.Delivery
import Omnicore.Write.SiblingRows

/-!
# Sibling presence

The event of a write carries the columns of every sibling, as nulls where the sibling has no row;
the projection takes an all-null group for a row that is gone and drops its keys, as the composer
omits a sibling it finds no row of.  The two agree as long as the write that finds all columns of a
sibling null also leaves no row of it.

## Main definitions

* `Agrees` : an event, the sibling row it is about, and the two documents say the same.

## Main results

* `get_payload_sibling` : the columns of a sibling in an event.
* `lacks_projected_iff`, `lacks_merged_iff` : when the projected and the composed document lack a
  sibling.
* `siblings_agree_iff` : the writes after which every sibling agrees.
-/

namespace Omnicore.Query

open Omnicore.Core Domain Write Hydrate List AssocMap SchemaDecl Except

/-! ### The columns of a sibling -/

section

variable {owner : OwnerSchema} {sib : SiblingTable} {c : String}

theorem mem_siblings (hsib : sib ∈ owner.siblingTables) : sib.toSiblingSchema ∈ owner.siblings := by
  rw [owner.siblings_eq]
  exact mem_map_of_mem hsib

theorem siblingColumn_own (hc : c ∈ owner.siblings.flatMap (columns ·.fields)) :
    c ∈ owner.ownColumns ∧ c ≠ owner.idColumn ∧ c ∉ managedColumns owner.toSchemaDecl ∧
      ∀ link, owner.sharedBase = some link → link.parentIDColumn ≠ c ∨
        link.parentIDColumn = owner.idColumn := by
  have hnodup : owner.ownColumns.Nodup := owner.keys_nodup.of_append_left.of_append_left
  have hown : c ∈ owner.ownColumns := by
    simp only [ownColumns, mem_append]
    tauto
  refine ⟨hown, ?_, fun hm => (managed_disjoint owner.toTableSchema hm).2.2 hc,
    fun link hlink => ?_⟩
  · rintro rfl
    exact disjoint_of_nodup_append (rootColumns_nodup owner.toTableSchema).of_append_left
      mem_cons_self hc
  · by_contra hcon
    rw [not_or, not_not] at hcon
    obtain ⟨rfl, hne⟩ := hcon
    refine disjoint_of_nodup_append hnodup ?_ (by simpa [hlink] using hne :
      link.parentIDColumn ∈ (owner.sharedBase.toList.map (·.parentIDColumn)).filter
        (· ≠ owner.idColumn))
    simp only [mem_append]
    tauto

end

/-! ### The event -/

section

theorem get_foldl_siblings_of_mem {sibs : List SiblingSchema} (values : String → Value)
    (m : Fields) (hnodup : (sibs.flatMap (columns ·.fields)).Nodup) {sib : SiblingSchema}
    (hsib : sib ∈ sibs) {c : String} (hc : c ∈ columns sib.fields) :
    (sibs.foldl (fun out sib => out.setAll (syncFields sib.fields values)) m).get c =
      some (redactValue sib.fields c (values c)) := by
  induction sibs generalizing m with
  | nil => cases hsib
  | cons s sibs ih =>
    rw [foldl_cons]
    rcases mem_cons.1 hsib with rfl | hsib
    · have hout : c ∉ sibs.flatMap (columns ·.fields) :=
        disjoint_of_nodup_append hnodup hc
      have hkeys : (syncFields sib.fields values).keys.Nodup := by
        rw [keys_syncFields]
        exact hnodup.of_append_left
      rw [get_foldl_siblings _ _ _ hout, get_setAll _ hkeys, get_syncFields, if_pos hc]
      rfl
    · exact ih _ hnodup.of_append_right hsib

variable {α : Type} [PersistentItem α] {owner : OwnerSchema} {src : Entity α}
  {root : Option (AggregateRoot α)} {ev : EventType} {now : Instant} {stamps : CascadeStamps}
  {rootFields : Fields} {ids : OutboxMeta} {sib : SiblingTable} {c : String}

/-- **The columns of a sibling in an event** are the redacted values of the entity. -/
theorem get_payload_sibling (hsib : sib ∈ owner.siblingTables) (hc : c ∈ columns sib.fields) :
    (buildWritePayload owner.toSchemaDecl src root ev now stamps rootFields ids).scalars.get c =
      some (redactValue sib.fields c (src.values c)) := by
  have hmem := mem_siblingColumns hsib hc
  obtain ⟨hown, hid, hman, hlink⟩ := siblingColumn_own hmem
  have hmanaged : c ∉ (managedTimestamps owner.toSchemaDecl now ev).keys := fun h =>
    hman (managedTimestamps_keys h)
  have hbase : c ∉ (sharedBaseScalars owner.toSchemaDecl src ids.baseID).keys := by
    intro h
    have hnot := (owner.ownColumn_disjoint hown).1
    unfold sharedBaseScalars at h
    split at h
    · rename_i link hs
      simp only [sharedBaseBusinessColumns, hs] at hnot
      split_ifs at h with hb hpk
      · cases h
      · exact hnot (by simpa using h)
      · rw [AssocMap.keys_append, mem_append, keys_syncFields] at h
        have hne : link.parentIDColumn ≠ owner.idColumn := by
          simpa [sharedPK, hs] using hpk
        rcases h with h | h
        · exact hnot h
        · have hc' : c = link.parentIDColumn := by simpa using h
          exact (hlink link hs).elim (fun hl => hl hc'.symm) hne
    · cases h
  simp only [buildWritePayload]
  rw [get_setAll_of_not_mem _ hmanaged, get_setAll_of_not_mem _ hbase]
  exact get_foldl_siblings_of_mem _ _ (siblingColumns_nodup owner) (mem_siblings hsib) hc

/-- The event shows a sibling as null. -/
def NullIn (ev : Payload) (sib : SiblingTable) : Prop :=
  ∀ c ∈ columns sib.fields, ev.scalars.get c = some .null

instance (ev : Payload) (sib : SiblingTable) : Decidable (NullIn ev sib) :=
  inferInstanceAs (Decidable (∀ c ∈ columns sib.fields, ev.scalars.get c = some .null))

/-- Every column of a sibling travels as null: it is nil, or a JSON text null, or redacted to
one. -/
def ShownNull (src : Entity α) (sib : SiblingTable) : Prop :=
  ∀ c ∈ columns sib.fields, redactValue sib.fields c (src.values c) = .null

theorem nullIn_iff (hsib : sib ∈ owner.siblingTables) :
    NullIn (buildWritePayload owner.toSchemaDecl src root ev now stamps rootFields ids) sib ↔
      ShownNull src sib := by
  refine forall₂_congr fun c hc => ?_
  rw [get_payload_sibling hsib hc, Option.some_inj]

omit [PersistentItem α] in
theorem shownNull_of_nilIn (h : NilIn src sib) : ShownNull src sib := by
  intro c hc
  have hnil : src.values c = .null := by
    simp only [NilIn, allNilFields, all_eq_true, Bool.and_eq_true, decide_eq_true_eq] at h
    exact (h c hc).1
  rw [hnil, redactValue]
  cases sib.fields.find? (·.column = c) with
  | none => rfl
  | some f => cases hf : f.inSync <;> simp [SchemaField.redact, hf]

end

/-! ### The projected document -/

/-- A document has no column of a sibling. -/
def Lacks (d : Doc) (sib : SiblingTable) : Prop := ∀ c ∈ columns sib.fields, d.get c = none

section

variable {owner : OwnerSchema} {sib : SiblingTable}

theorem get_foldl_dropSibling_of_mem {scalars : Fields} {sibs : List SiblingSchema}
    (own : SetStage) (hnodup : (sibs.flatMap (columns ·.fields)).Nodup) {sib : SiblingSchema}
    (hsib : sib ∈ sibs) (hall : ∀ c ∈ columns sib.fields, c ∈ scalars.keys) {c : String}
    (hc : c ∈ columns sib.fields) :
    (sibs.foldl (dropSibling scalars) own).get c =
      if ∀ c ∈ columns sib.fields, scalars.get c = some .null then some .remove
      else own.get c := by
  induction sibs generalizing own with
  | nil => cases hsib
  | cons s sibs ih =>
    rw [foldl_cons]
    rcases mem_cons.1 hsib with rfl | hsib
    · have hout : c ∉ sibs.flatMap (columns ·.fields) :=
        disjoint_of_nodup_append hnodup hc
      have hfilter : (columns sib.fields).filter (· ∈ scalars.keys) = columns sib.fields := by
        simpa using hall
      rw [get_foldl_dropSibling _ _ _ hout]
      simp only [dropSibling, hfilter]
      have hne : columns sib.fields ≠ [] := ne_nil_of_mem hc
      by_cases hnull : ∀ c ∈ columns sib.fields, scalars.get c = some .null
      · rw [if_pos ⟨hne, hnull⟩, if_pos hnull]
        have hkeys : ((columns sib.fields).map id).Nodup := by simpa using hnodup.of_append_left
        exact get_foldl_set_of_mem (fun _ => Expr.remove) own hkeys hc
      · rw [if_neg fun h => hnull h.2, if_neg hnull]
    · have hout : c ∉ columns s.fields := fun h =>
        disjoint_of_nodup_append hnodup h (mem_flatMap.2 ⟨sib, hsib, hc⟩)
      rw [ih _ hnodup.of_append_right hsib]
      congr 1
      exact get_foldl_dropSibling scalars [s] own (by simpa using hout)

section

variable {ev : Payload} {c : String} (hsib : sib ∈ owner.siblingTables)
  (hall : ∀ c ∈ columns sib.fields, c ∈ ev.scalars.keys)
include hsib hall

theorem get_ownSet_sibling (hc : c ∈ columns sib.fields) :
    (ownSet owner.toSchemaDecl ev).get c =
      if NullIn ev sib then some .remove else (ev.scalars.get c).map .lit := by
  obtain ⟨hown, hid, -, -⟩ := siblingColumn_own (mem_siblingColumns hsib hc)
  have hbase := (owner.ownColumn_disjoint hown).1
  have hrev : c ≠ owner.revisionColumn := by
    rintro rfl
    exact owner.revision_not_key (mem_append_left _ (mem_append_left _ hown))
  have hscalar : get ((ev.scalars.filter fun p => p.1 ≠ owner.revisionColumn ∧
      p.1 ∉ owner.sharedBaseBusinessColumns).map fun p => (p.1, Expr.lit p.2)) c =
        (ev.scalars.get c).map .lit := by
    rw [get_map _ fun _ v => Expr.lit v,
      get_filter_key _ (fun k => decide (k ≠ owner.revisionColumn ∧
        k ∉ owner.sharedBaseBusinessColumns)), if_pos (by simp [hrev, hbase])]
  have hfold := get_foldl_dropSibling_of_mem ((ev.scalars.filter fun p =>
    p.1 ≠ owner.revisionColumn ∧ p.1 ∉ owner.sharedBaseBusinessColumns).map
      fun p => (p.1, Expr.lit p.2)) (siblingColumns_nodup owner) (mem_siblings hsib) hall hc
  rw [hscalar] at hfold
  refine Eq.trans ?_ hfold
  simp only [ownSet]
  split_ifs
  · rfl
  · exact get_set_ne _ _ (Ne.symm hid)

/-- **The projected document** lacks a sibling exactly when the event shows it as null. -/
theorem lacks_projected_iff {d d' : Doc} (hp : Projected owner.toTableSchema ev d d')
    (hrev : storedRevision d docRevisionField ≤ ev.ids.revision) :
    Lacks d' sib ↔ NullIn ev sib := by
  constructor
  · intro hlacks
    by_contra hnull
    obtain ⟨f, hf⟩ := exists_mem_of_ne_nil _ (owner.mapped sib hsib)
    have hc : f.column ∈ columns sib.fields := mem_map_of_mem hf
    obtain ⟨v, hv⟩ : ∃ v, ev.scalars.get f.column = some v :=
      Option.ne_none_iff_exists'.1 fun h => (get_eq_none_iff _ _).1 h (hall _ hc)
    have hget := get_ownSet_sibling hsib hall hc
    rw [if_neg hnull, hv] at hget
    have hdoc := hp.own _ _ hget
    rw [if_pos hrev, hlacks _ hc] at hdoc
    cases hdoc
  · intro hnull c hc
    have hget := get_ownSet_sibling hsib hall hc
    rw [if_pos hnull] at hget
    rw [hp.own _ _ hget, if_pos hrev]
    rfl

end

end

/-! ### The composed document -/

/-- The owner as the hydrator walks it. -/
def ownerNode (owner : OwnerSchema) : Node where
  table := owner.table
  idColumn := owner.idColumn
  fields := owner.fields
  siblings := owner.siblingTables.map fun sib => { table := sib.table, fields := sib.fields }
  id_declared h := owner.named (by simp [ownColumns, h])
  id_plain h := (business_disjoint owner.toTableSchema h).1 rfl
  sibling_plain s hs h := by
    obtain ⟨sib, hsib, rfl⟩ := mem_map.1 hs
    exact (siblingColumn_own (mem_siblingColumns hsib h)).2.1 rfl

/-- The database the hydrator reads holds the sibling rows. -/
def Holds (q : Querier) (owner : OwnerSchema) (rows : SiblingRows) : Prop :=
  ∀ sib ∈ owner.siblingTables, q.tables sib.table =
    (rows sib.table).map fun p => (owner.idColumn, .str p.1) :: p.2

section

variable {owner : OwnerSchema} {sib : SiblingTable} {q : Querier} {rows : SiblingRows} {id : String}

/-- A sibling as a source of rows. -/
def siblingSource (sib : SiblingTable) : Source := { table := sib.table, fields := sib.fields }

variable {includeArchived : Bool}

theorem fetchRow_sibling (hq : Holds q owner rows) (hsib : sib ∈ owner.siblingTables) :
    fetchRow q (siblingSource sib) owner.idColumn none includeArchived id = none ↔
      (rows sib.table).get id = none := by
  rw [fetchRow, Option.map_eq_none_iff, head?_eq_none_iff, eq_nil_iff_forall_not_mem,
    get_eq_none_iff]
  have hgate : archiveGate none includeArchived = .any := by cases includeArchived <;> rfl
  constructor
  · intro h hmem
    obtain ⟨p, hp, rfl⟩ := mem_map.1 hmem
    refine h ((owner.idColumn, .str p.1) :: p.2) (Querier.mem_select.2 ⟨?_, ?_⟩)
    · rw [siblingSource, hq sib hsib]
      exact mem_map_of_mem hp
    · rw [hgate]
      exact Select.admits_iff.2 ⟨p.1, mem_singleton.2 rfl, rowKey_eq_some.2
        (by rw [get_cons, if_pos rfl]), rfl⟩
  · intro h row hrow
    obtain ⟨hmem, hadm⟩ := Querier.mem_select.1 hrow
    obtain ⟨k, hk, hkey, -⟩ := Select.admits_iff.1 hadm
    obtain rfl := mem_singleton.1 hk
    rw [siblingSource, hq sib hsib] at hmem
    obtain ⟨p, hp, rfl⟩ := mem_map.1 hmem
    have := rowKey_eq_some.1 hkey
    rw [get_cons, if_pos rfl, Option.some_inj, Value.str.injEq] at this
    exact h (this ▸ mem_map_of_mem hp)

theorem mem_readColumns_sibling (hsib : sib ∈ owner.siblingTables) {c : String} :
    c ∈ (siblingSource sib).readColumns ↔ c ∈ columns sib.fields := by
  have hne : c ∈ columns sib.fields → c ≠ "" := by
    rintro hc rfl
    exact owner.named (siblingColumn_own (mem_siblingColumns hsib hc)).1
  simp only [Source.readColumns, Grouping.mem_uniq, siblingSource, mem_filter,
    cons_append, mem_cons, mem_append, Option.toList_none, not_mem_nil,
    or_false, decide_eq_true_eq]
  tauto

theorem mem_keys_mergeFound {skip : List String} {found : Option Doc} {doc : Doc} {c : String} :
    c ∈ keys (mergeFound skip found doc) ↔
      c ∈ doc.keys ∨ ∃ row ∈ found, c ∈ keys row ∧ c ∉ skip := by
  cases found with
  | none => simp [mergeFound]
  | some row =>
    simp only [mergeFound, mergeRow, Option.mem_some_iff, exists_eq_left']
    rw [mem_keys_setAll]
    refine or_congr_right ⟨fun h => ?_, fun ⟨h, hskip⟩ => ?_⟩
    · obtain ⟨p, hp, rfl⟩ := mem_map.1 h
      obtain ⟨hp, hskip⟩ := mem_filter.1 hp
      exact ⟨mem_map_of_mem hp, of_decide_eq_true hskip⟩
    · obtain ⟨p, hp, rfl⟩ := mem_map.1 h
      exact mem_map_of_mem (mem_filter.2 ⟨hp, decide_eq_true hskip⟩)

theorem mem_keys_mergeSiblings (hq : Holds q owner rows) {sibs : List SiblingTable}
    (hsibs : ∀ s ∈ sibs, s ∈ owner.siblingTables) (doc : Doc) {c : String}
    (hc : c ≠ owner.idColumn) :
    c ∈ keys ((sibs.map siblingSource).foldl (fun doc s => mergeFound [owner.idColumn]
        (fetchRow q s owner.idColumn none includeArchived id) doc) doc) ↔
      c ∈ doc.keys ∨ ∃ s ∈ sibs, c ∈ columns s.fields ∧ (rows s.table).get id ≠ none := by
  induction sibs generalizing doc with
  | nil => simp
  | cons s sibs ih =>
    have hs : s ∈ owner.siblingTables := hsibs s mem_cons_self
    have hrow : (∃ row ∈ fetchRow q (siblingSource s) owner.idColumn none includeArchived id,
        c ∈ keys row ∧ c ∉ [owner.idColumn]) ↔
          c ∈ columns s.fields ∧ (rows s.table).get id ≠ none := by
      rw [Ne, ← fetchRow_sibling hq hs]
      constructor
      · rintro ⟨row, hrow, hkey, -⟩
        refine ⟨?_, by rw [hrow]; exact nofun⟩
        obtain ⟨r, -, rfl⟩ := Option.map_eq_some_iff.1 hrow
        rw [keys_toDocument, mem_readColsWithKey, mem_readColumns_sibling hs] at hkey
        exact hkey.resolve_right hc
      · rintro ⟨hcol, hne⟩
        obtain ⟨row, hrow⟩ := Option.ne_none_iff_exists'.1 hne
        refine ⟨row, hrow, ?_, by simpa using hc⟩
        obtain ⟨r, -, rfl⟩ := Option.map_eq_some_iff.1 hrow
        rw [keys_toDocument, mem_readColsWithKey, mem_readColumns_sibling hs]
        exact .inl hcol
    rw [map_cons, foldl_cons,
      ih (fun s hs => hsibs s (mem_cons_of_mem _ hs)), mem_keys_mergeFound, hrow]
    simp [or_assoc]

/-- **The composed document** lacks a sibling exactly when there is no row of it. -/
theorem lacks_merged_iff (hq : Holds q owner rows) (hsib : sib ∈ owner.siblingTables) {doc : Doc}
    (hdoc : Lacks doc sib) :
    Lacks (mergeOwnerSiblings q includeArchived (ownerNode owner) id doc) sib ↔
      (rows sib.table).get id = none := by
  have hkeys : ∀ c ∈ columns sib.fields,
      ((mergeOwnerSiblings q includeArchived (ownerNode owner) id doc).get c = none ↔
        (rows sib.table).get id = none) := by
    intro c hc
    have hne := (siblingColumn_own (mem_siblingColumns hsib hc)).2.1
    have hdoc : c ∉ doc.keys := (get_eq_none_iff _ _).1 (hdoc c hc)
    have hmem : c ∈ keys (mergeOwnerSiblings q includeArchived (ownerNode owner) id doc) ↔
        _ := mem_keys_mergeSiblings hq (fun _ h => h) doc hne
    rw [get_eq_none_iff, hmem]
    constructor
    · intro h
      by_contra hrow
      exact h (.inr ⟨sib, hsib, hc, hrow⟩)
    · rintro hrow (h | ⟨s, hs, hcs, h⟩)
      · exact hdoc h
      · exact h (sibling_of_column hs hsib hcs hc ▸ hrow)
  constructor
  · intro hlacks
    obtain ⟨f, hf⟩ := exists_mem_of_ne_nil _ (owner.mapped sib hsib)
    have hc : f.column ∈ columns sib.fields := mem_map_of_mem hf
    exact (hkeys _ hc).1 (hlacks _ hc)
  · exact fun hrow c hc => (hkeys c hc).2 hrow

end

/-! ### The event and the row -/

/-- An event and the sibling row it is about say the same: its columns are null exactly when the
row is absent, and the projected document lacks the sibling exactly when the composed one does. -/
structure Agrees (owner : OwnerSchema) (ev : OutboxRow) (rows : SiblingRows)
    (sib : SiblingTable) : Prop where
  event : NullIn ev.payload sib ↔ (rows sib.table).get ev.aggregateID = none
  document : ∀ d d', Projectable owner.toTableSchema d →
    storedRevision d docRevisionField ≤ ev.payload.ids.revision →
    runStages d (buildProjectionStages owner.toSchemaDecl ev.payload) = .ok d' →
    ∀ q, Holds q owner rows → ∀ includeArchived row, Lacks row sib →
      (Lacks d' sib ↔
        Lacks (mergeOwnerSiblings q includeArchived (ownerNode owner) ev.aggregateID row) sib)

/-- A write leaves a sibling row the event shows as null: its columns are all nil, it was there, and
the write is not one of the whole entity; or some are not, and all of them travel as null. -/
def Strands (verb : OwnerVerb) {α : Type} (src : Entity α) (id : String) (rows : SiblingRows)
    (sib : SiblingTable) : Prop :=
  if NilIn src sib then verb ≠ .update false ∧ (rows sib.table).get id ≠ none
  else ShownNull src sib

/-- **After a transaction every sibling agrees with the event** exactly when the write strands
none. -/
theorem siblings_agree_iff {α : Type} [PersistentItem α] (env : Env) (owner : OwnerSchema)
    (db db' : Database) (rows rows' : SiblingRows) (verb : OwnerVerb) (src : Entity α)
    (now : Instant) (ev : OutboxRow) (hkeys : ∀ ar ∈ src.root, ar.aggregates.keys.Nodup)
    (hid : ev.aggregateID ≠ "")
    (h : commitOwner env owner db rows verb src now = .ok (db', rows', ev)) :
    (∀ sib ∈ owner.siblingTables, Agrees owner ev rows' sib) ↔
      ∀ sib ∈ owner.siblingTables, ¬ Strands verb src ev.aggregateID rows sib := by
  simp only [commitOwner, bind_ok] at h
  obtain ⟨db1, hcommit, h⟩ := h
  obtain ⟨ev', hlast, htold⟩ := told_of_commit hkeys hcommit
  rw [hlast] at h
  simp only [bind_ok, pure_ok, Prod.mk.injEq] at h
  obtain ⟨rows1, hrows, rfl, rfl, rfl⟩ := h
  have hwell := wellFormed_of_told hid htold
  obtain ⟨-, -, -, root, stamps, rootFields, hpay, -, -⟩ := htold
  refine forall₂_congr fun sib hsib => ?_
  have hnull : NullIn ev'.payload sib ↔ ShownNull src sib := by
    rw [hpay]
    exact nullIn_iff hsib
  have habsent := writeSiblings_absent_iff hrows hsib
  have hcarried : ∀ c ∈ columns sib.fields, c ∈ ev'.payload.scalars.keys := by
    intro c hc
    rw [hpay]
    by_contra hnot
    have hget : (buildWritePayload owner.toSchemaDecl src root verb.roleVerb.eventType now stamps
        rootFields ev'.payload.ids).scalars.get c = _ := get_payload_sibling hsib hc
    rw [(get_eq_none_iff _ _).2 hnot] at hget
    cases hget
  have hiff : (NullIn ev'.payload sib ↔ (rows1 sib.table).get ev'.aggregateID = none) ↔
      ¬Strands verb src ev'.aggregateID rows sib := by
    rw [hnull, habsent, Strands, OwnerVerb.Removes]
    by_cases hnil : NilIn src sib
    · have := shownNull_of_nilIn hnil
      simp only [hnil, this, if_true]
      tauto
    · simp only [hnil, if_false]
      tauto
  constructor
  · exact fun h => hiff.1 h.event
  · intro hstrand
    have hevent := hiff.2 hstrand
    refine ⟨hevent, fun d d' hd hrev hrun q hq includeArchived row hlacks => ?_⟩
    obtain ⟨d'', hrun', hp⟩ := buildProjectionStages_run hwell hd
    obtain rfl : d' = d'' := by
      rw [hrun] at hrun'
      exact ok.inj hrun'
    rw [lacks_projected_iff hsib hcarried hp hrev, lacks_merged_iff hq hsib hlacks, hevent]

/-- The contact details of a customer, in a table of their own. -/
def contactTable : SiblingTable where
  fields := [{ column := "phone" }, { column := "email" }]
  table := "customer_contacts"

/-- Customers with contact details. -/
def contactSchema : OwnerSchema where
  table := "customers"
  idColumn := "id"
  fields := [{ column := "name" }]
  revisionColumn := "revision"
  siblings := [contactTable.toSiblingSchema]
  archivedAt := some "archived_at"
  siblingTables := [contactTable]
  siblings_eq := rfl
  siblingTables_nodup := by decide
  mapped := by decide
  named := by decide

/-- A store that mints `c` and a number. -/
def contactEnv : Env where
  newWriteID n := "c" ++ toString n
  deterministicBaseID nk := nk
  referencingRoles := []

/-- A customer with a phone number, or with no contact details. -/
def contactOf (id : String) (revision : ℕ) (phone : Value) : Entity Address :=
  { name := "Customer", id, revision
    values := fun c => if c = "phone" then phone else if c = "email" then .null else .str "Ann" }

/-- A customer is stored with a phone number, then patched to have none: the row of the contact
details stays as it was, and the event tells that it is gone. -/
theorem patch_strands_contact :
    ∃ db₁ rows₁ ev₁ db₂ rows₂ ev₂,
      commitOwner contactEnv contactSchema {} (fun _ => []) .insert
        (contactOf "" 0 (.str "555")) 5 = .ok (db₁, rows₁, ev₁) ∧
      commitOwner contactEnv contactSchema db₁ rows₁ (.update true)
        (contactOf "c0" 1 .null) 7 = .ok (db₂, rows₂, ev₂) ∧
      NullIn ev₂.payload contactTable ∧
      (rows₂ "customer_contacts").get "c0" = some [("phone", .str "555"), ("email", .null)] ∧
      ¬ Agrees contactSchema ev₂ rows₂ contactTable := by
  refine ⟨_, _, _, _, _, _, rfl, rfl, by decide, by decide, fun h => ?_⟩
  exact absurd (h.event.1 (by decide)) (by decide)

/-- The insert of the customer agrees with its event. -/
theorem insert_agrees_contact :
    ∃ db rows ev, commitOwner contactEnv contactSchema {} (fun _ => []) .insert
        (contactOf "" 0 (.str "555")) 5 = .ok (db, rows, ev) ∧
      Agrees contactSchema ev rows contactTable :=
  ⟨_, _, _, rfl, (siblings_agree_iff contactEnv contactSchema {} _ (fun _ => []) _ .insert
    (contactOf "" 0 (.str "555")) 5 _ nofun (by decide) rfl).2
      (fun sib hsib h => by
        obtain rfl := mem_singleton.1 hsib
        exact absurd (h "phone" (by decide)) (by decide)) contactTable mem_cons_self⟩

end Omnicore.Query
