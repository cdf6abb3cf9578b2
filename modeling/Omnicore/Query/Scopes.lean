import Omnicore.Lib.GuardedLog
import Omnicore.Query.Delivery
import Omnicore.Query.Elements

/-!
# The two scopes of a document

A document keeps two watermarks.  The columns of the root and the own collections move with its
revision, the columns of a shared base with the revision of the base.  Each scope is a replica of
the log of the aggregate's events, behind a guard of its own.

## Main definitions

* `ownOf`, `baseOf` : the scopes of a document.
* `Overtakes` : an event does all that another one does to the own scope.
* `Sequence` : the events of one aggregate as the write engine tells them.

## Main results

* `Projected.ownOf`, `Projected.baseOf` : the pipeline of an event is the guarded application of it
  in either scope.
* `sequence_of_sound` : the events of every history are a sequence.
-/

namespace Omnicore.Query

open Omnicore.Core Write GuardedLog AssocMap Replica SchemaDecl List

/-- What moves with the revision of a document. -/
@[ext]
structure OwnScope (schema : TableSchema) where
  columns : {k // k ∈ schema.ownColumns} → Option Value
  elements : {c // c ∈ schema.children} → List Value

/-- What moves with the revision of the base. -/
@[ext]
structure BaseScope (schema : TableSchema) where
  columns : {k // k ∈ schema.sharedBaseBusinessColumns} → Option Value

variable (schema : TableSchema) (ev : OutboxRow)

/-- The own scope of a document. -/
def ownOf (d : Doc) : Replica (OwnScope schema) :=
  ⟨storedRevision d docRevisionField, fun k => d.get k.1, fun c => segment d c.1.segment⟩

/-- The scope of the base. -/
def baseOf (d : Doc) : Replica (BaseScope schema) :=
  ⟨storedRevision d docBaseRevisionField, ⟨fun k => d.get k.1⟩⟩

/-- A column after a stage. -/
def columnAfter (set : SetStage) (k : String) (old : Option Value) : Option Value :=
  match set.get k with
  | some e => columnValue e
  | none => old

/-- The operations of an event on an own collection. -/
def ownOps (ev : Payload) (c : ChildSchema) : List ChildPayload :=
  (ev.children.get c.typeName).getD []

/-- What an event does to the own scope. -/
def actOwn (s : OwnScope schema) : OwnScope schema :=
  ⟨fun k => columnAfter (ownSet schema.toSchemaDecl ev.payload) k.1 (s.columns k),
    fun c => (ownOps ev.payload c.1).foldl (editOp c.1 0 false) (s.elements c)⟩

/-- What an event does to the scope of the base. -/
def actBase (s : BaseScope schema) : BaseScope schema :=
  ⟨fun k => columnAfter (baseSet schema.toSchemaDecl ev.payload) k.1 (s.columns k)⟩

/-- The revision of an event. -/
def ownRev : ℤ := ev.payload.ids.revision

/-- The revision of the base in an event. -/
def baseRev : ℤ := ev.payload.ids.baseRevision

/-- The event carries the columns of a shared base. -/
def Carries : Prop := CarriesBase (baseSet schema.toSchemaDecl ev.payload) ev.payload.ids

instance (schema : TableSchema) (ev : OutboxRow) : Decidable (Carries schema ev) :=
  inferInstanceAs (Decidable (CarriesBase ..))

/-- The scope of the base after an event: applied behind its watermark, where it carries the columns
of the base. -/
def baseAfter (r : Replica (BaseScope schema)) : Replica (BaseScope schema) :=
  if Carries schema ev then r.apply baseRev (actBase schema) ev else r

theorem Carries.isRole {schema : TableSchema} {ev : OutboxRow} (h : Carries schema ev) :
    schema.sharedBase.isSome := by
  rw [Option.isSome_iff_ne_none]
  refine fun hs => h.1 ?_
  rw [eq_nil_iff_get]
  simp [get_baseSet, sharedBaseBusinessColumns, hs]

/-! ### The pipelines on the scopes -/

section

variable {schema : TableSchema} {ev : OutboxRow} {d d' : Doc} {k : String}

theorem ne_watermarks {cols : List String} (h : ∀ r ∈ reservedKeys, r ∉ cols)
    (hk : k ∈ cols) : k ≠ docRevisionField ∧ k ≠ docBaseRevisionField := by
  constructor <;> rintro rfl <;> exact h _ (by decide) hk

theorem ownColumn_ne (hk : k ∈ schema.ownColumns) :
    k ∉ (baseSet schema ev.payload).keys ∧
      k ∉ schema.allChildren.map ChildSchema.segment ∧ k ≠ docRevisionField ∧
      k ≠ docBaseRevisionField := by
  obtain ⟨hbase, hseg⟩ := schema.ownColumn_disjoint hk
  exact ⟨(setsColumns_baseSet _ _).not_mem_keys hbase, hseg,
    ne_watermarks (fun _ hr => (schema.reserved_not_key hr).1) hk⟩

theorem baseColumn_ne (hev : WellFormed schema ev.payload)
    (hk : k ∈ schema.sharedBaseBusinessColumns) :
    k ∉ (ownSet schema ev.payload).keys ∧
      k ∉ schema.allChildren.map ChildSchema.segment ∧ k ≠ docRevisionField ∧
      k ≠ docBaseRevisionField := by
  exact ⟨(setsColumns_ownSet hev).not_mem_keys fun h => (schema.ownColumn_disjoint h).1 hk,
    schema.baseColumn_not_segment hk,
    ne_watermarks (fun _ hr => (schema.reserved_not_key hr).2.1) hk⟩

theorem Projected.ownOf (h : Projected schema ev.payload d d')
    (hblocks : OwnedBlocks schema ev.payload) :
    ownOf schema d' = (Query.ownOf schema d).apply ownRev (actOwn schema) ev := by
  have hcol : ∀ k : {k // k ∈ schema.ownColumns}, d'.get k.1 =
      if Query.storedRevision d docRevisionField ≤ ownRev ev then
        columnAfter (ownSet schema ev.payload) k.1 (d.get k.1)
      else d.get k.1 := by
    rintro ⟨k, hk⟩
    rw [columnAfter]
    cases hset : (ownSet schema ev.payload).get k with
    | some e => exact h.own k e hset
    | none =>
      obtain ⟨hbase, hseg, hrev, hbrev⟩ := ownColumn_ne hk
      rw [get_eq_none_iff] at hset
      rw [h.other k hset hbase hseg hrev hbrev, ite_self]
  have hseg : ∀ c : {c // c ∈ schema.children}, segment d' c.1.segment =
      if Query.storedRevision d docRevisionField ≤ ownRev ev then
        (ownOps ev.payload c.1).foldl (editOp c.1 0 false) (segment d c.1.segment)
      else segment d c.1.segment := by
    rintro ⟨c, hc⟩
    rw [segment, h.segments c (mem_append_left _ hc)]
    simp only [segmentAfter, hblocks.get_baseChildren hc, Option.getD_none, foldl_nil]
    rfl
  have hrev := h.storedRevision
  rw [apply]
  split_ifs with hle
  · refine Replica.ext ?_ (OwnScope.ext (funext fun k => ?_) (funext fun c => ?_))
    · exact hrev.trans (max_eq_right hle)
    · exact (hcol k).trans (if_pos hle)
    · exact (hseg c).trans (if_pos hle)
  · refine Replica.ext ?_ (OwnScope.ext (funext fun k => ?_) (funext fun c => ?_))
    · exact hrev.trans (max_eq_left (le_of_not_ge hle))
    · exact (hcol k).trans (if_neg hle)
    · exact (hseg c).trans (if_neg hle)

theorem baseOf_of_get
    (hrev : d'.get docBaseRevisionField = if Carries schema ev then
      some (.int (max (storedRevision d docBaseRevisionField) ev.payload.ids.baseRevision))
      else d.get docBaseRevisionField)
    (hset : ∀ k e, (baseSet schema ev.payload).get k = some e → d'.get k =
      if Carries schema ev ∧ storedRevision d docBaseRevisionField ≤ ev.payload.ids.baseRevision
      then columnValue e else d.get k)
    (hother : ∀ k ∈ schema.sharedBaseBusinessColumns,
      k ∉ (baseSet schema ev.payload).keys → d'.get k = d.get k) :
    baseOf schema d' = baseAfter schema ev (baseOf schema d) := by
  have hcol : ∀ k : {k // k ∈ schema.sharedBaseBusinessColumns}, d'.get k.1 =
      if Carries schema ev ∧ storedRevision d docBaseRevisionField ≤ baseRev ev then
        columnAfter (baseSet schema ev.payload) k.1 (d.get k.1)
      else d.get k.1 := by
    rintro ⟨k, hk⟩
    rw [columnAfter]
    cases hget : (baseSet schema ev.payload).get k with
    | some e => exact hset k e hget
    | none =>
      rw [get_eq_none_iff] at hget
      rw [hother k hk hget, ite_self]
  rw [baseAfter]
  split_ifs with hcar
  · rw [if_pos hcar] at hrev
    have hstored := storedRevision_of_get hrev
    rw [apply]
    split_ifs with hle
    · refine Replica.ext ?_ (BaseScope.ext (funext fun k => ?_))
      · exact hstored.trans (max_eq_right hle)
      · exact (hcol k).trans (if_pos ⟨hcar, hle⟩)
    · refine Replica.ext ?_ (BaseScope.ext (funext fun k => ?_))
      · exact hstored.trans (max_eq_left (le_of_not_ge hle))
      · exact (hcol k).trans (if_neg fun h => hle h.2)
  · rw [if_neg hcar] at hrev
    refine Replica.ext ?_ (BaseScope.ext (funext fun k => ?_))
    · simp [baseOf, storedRevision, hrev]
    · exact (hcol k).trans (if_neg fun h => hcar h.1)

theorem Projected.baseOf (h : Projected schema ev.payload d d')
    (hev : WellFormed schema ev.payload) :
    baseOf schema d' = baseAfter schema ev (Query.baseOf schema d) := by
  refine baseOf_of_get h.baseRevision h.base fun k hk hbase => ?_
  obtain ⟨hown, hseg, hrev, hbrev⟩ := baseColumn_ne hev hk
  exact h.other k hown hbase hseg hrev hbrev

theorem baseSegment_mem (h : k ∈ schema.baseChildren.map ChildSchema.segment) :
    k ∈ schema.allChildren.map ChildSchema.segment := by
  rw [allChildren, map_append]
  exact mem_append_right _ h

theorem FannedOut.baseOf (h : FannedOut schema ev.payload d d')
    (hev : WellFormed schema ev.payload) :
    baseOf schema d' = baseAfter schema ev (Query.baseOf schema d) := by
  refine baseOf_of_get h.baseRevision h.base fun k hk hbase => ?_
  obtain ⟨-, hseg, -, hbrev⟩ := baseColumn_ne hev hk
  exact h.other k hbase (fun hmem => hseg (baseSegment_mem hmem)) hbrev

theorem FannedOut.ownOf (h : FannedOut schema ev.payload d d')
    (hblocks : OwnedBlocks schema ev.payload) : ownOf schema d' = Query.ownOf schema d := by
  have hkey := revision_not_key schema
  have hrev := h.other docRevisionField ((setsColumns_baseSet _ _).not_mem_keys hkey.2.1)
    (fun hmem => hkey.2.2 (baseSegment_mem hmem)) (by decide)
  refine Replica.ext ?_ (OwnScope.ext (funext fun ⟨k, hk⟩ => ?_) (funext fun ⟨c, hc⟩ => ?_))
  · simp [Query.ownOf, storedRevision, hrev]
  · obtain ⟨hbase, hseg, -, hbrev⟩ := ownColumn_ne hk
    exact h.other k hbase (fun hmem => hseg (baseSegment_mem hmem)) hbrev
  · have hval := (h.segments c (mem_append_left _ hc)).2
    rwa [hblocks.get_baseChildren hc] at hval

end

/-! ### Events that hide others -/

section

variable {schema : TableSchema} {e f : OutboxRow}

/-- What the event `f` does to the own scope, `e` does too: it sets every column that `f` sets, and
writes or deletes every own child that `f` edits. -/
structure Overtakes (schema : TableSchema) (e f : OutboxRow) : Prop where
  columns : ∀ k ∈ (ownSet schema.toSchemaDecl f.payload).keys,
    k ∈ (ownSet schema.toSchemaDecl e.payload).keys
  elements : ∀ c ∈ schema.children, Replaces c (ownOps e.payload c) (ownOps f.payload c)

instance (schema : TableSchema) (e f : OutboxRow) : Decidable (Overtakes schema e f) :=
  decidable_of_iff ((∀ k ∈ (ownSet schema.toSchemaDecl f.payload).keys,
      k ∈ (ownSet schema.toSchemaDecl e.payload).keys) ∧
      ∀ c ∈ schema.children, Replaces c (ownOps e.payload c) (ownOps f.payload c))
    ⟨fun h => ⟨h.1, h.2⟩, fun h => ⟨h.1, h.2⟩⟩

theorem columnAfter_columnAfter {set set' : SetStage} {k : String}
    (h : k ∈ set'.keys → k ∈ set.keys) (v : Option Value) :
    columnAfter set k (columnAfter set' k v) = columnAfter set k v := by
  simp only [columnAfter]
  cases hset : set.get k with
  | some e => rfl
  | none =>
    have hset' : set'.get k = none := by
      rw [get_eq_none_iff] at hset ⊢
      exact fun hk => hset (h hk)
    simp [hset']

/-- The operations of an event on the own collections keep the ids of the elements. -/
def EditsOwn (schema : TableSchema) (ev : Payload) : Prop :=
  ∀ c ∈ schema.children, ∀ op ∈ ownOps ev c, Editable c op

theorem covers_self (h : EditsOwn schema e.payload) : Covers (actOwn schema) e e := fun _ =>
  OwnScope.ext (funext fun _ => columnAfter_columnAfter (fun hk => hk) _)
    (funext fun c => foldl_editOp_idem (h c.1 c.2))

theorem Overtakes.covers (h : Overtakes schema e f) (he : EditsOwn schema e.payload)
    (hf : EditsOwn schema f.payload) : Covers (actOwn schema) e f := fun _ =>
  OwnScope.ext (funext fun _ => columnAfter_columnAfter (h.columns _) _)
    (funext fun c => (h.elements c.1 c.2).foldl_editOp (he c.1 c.2) (hf c.1 c.2) _)

theorem baseAfter_baseAfter (r : Replica (BaseScope schema)) :
    baseAfter schema e (baseAfter schema e r) = baseAfter schema e r := by
  simp only [baseAfter]
  split_ifs
  · exact apply_apply (fun _ => BaseScope.ext (funext fun _ =>
      columnAfter_columnAfter (fun hk => hk) _))
  · rfl

theorem le_revision_baseAfter (e : OutboxRow) (r : Replica (BaseScope schema)) :
    r.revision ≤ (baseAfter schema e r).revision ∧
      (Carries schema e → baseRev e ≤ (baseAfter schema e r).revision) := by
  rw [baseAfter]
  split_ifs with h
  · exact ⟨le_revision_apply.1, fun _ => le_revision_apply.2⟩
  · exact ⟨le_rfl, fun hcar => absurd hcar h⟩

theorem covers_base (h : ∀ k ∈ schema.sharedBaseBusinessColumns,
    k ∈ (baseSet schema e.payload).keys) : Covers (actBase schema) e f := fun _ =>
  BaseScope.ext (funext fun k => columnAfter_columnAfter (fun _ => h k.1 k.2) _)

end

/-! ### The events of one aggregate -/

/-- The events of one aggregate, one after another: with growing revisions, and either all with the
columns of the shared base or none. -/
structure Sequence (schema : TableSchema) (id : String) (evs : List OutboxRow) : Prop where
  id : ∀ ev ∈ evs, ev.aggregateID = id
  wellFormed : ∀ ev ∈ evs, WellFormed schema ev.payload
  blocks : ∀ ev ∈ evs, OwnedBlocks schema.toSchemaDecl ev.payload
  editsOwn : ∀ ev ∈ evs, EditsOwn schema ev.payload
  revisions : evs.Pairwise fun e f => ownRev e < ownRev f
  baseRevisions : schema.sharedBase.isSome → evs.Pairwise fun e f => baseRev e < baseRev f
  base : (∀ ev ∈ evs, ¬Carries schema ev) ∨ ∀ ev ∈ evs, Carries schema ev ∧
    ∀ k ∈ schema.sharedBaseBusinessColumns, k ∈ (baseSet schema.toSchemaDecl ev.payload).keys

section

variable {α : Type} [PersistentItem α] {schema : TableSchema} {verb : RoleVerb} {src : Entity α}
  {now : Instant} {ev : OutboxRow}

theorem editsOwn_of_told (h : Told schema verb src now ev) : EditsOwn schema ev.payload := by
  intro c hc op hop
  have hc : c ∈ schema.allChildren := mem_append_left _ hc
  obtain ⟨cascade, it, rfl⟩ := op_of_told h hc (.inl hop)
  exact editable_childPayload hc

theorem mem_keys_baseSet_of_told (h : Told schema verb src now ev)
    (hid : ev.payload.ids.baseID ≠ "") {k : String}
    (hk : k ∈ schema.sharedBaseBusinessColumns) : k ∈ (baseSet schema ev.payload).keys := by
  obtain ⟨-, -, -, root, stamps, rootFields, hpay, -, -⟩ := h
  cases hs : schema.sharedBase with
  | none => simp [sharedBaseBusinessColumns, hs] at hk
  | some link =>
    have hcol : k ∈ columns link.base.fields := by
      simpa [sharedBaseBusinessColumns, hs] using hk
    have hget : (buildWritePayload schema src root verb.eventType now stamps rootFields
        ev.payload.ids).scalars.get k = some _ :=
      get_buildWritePayload_base hs schema.keys_nodup hid hcol
    rw [← hpay] at hget
    by_contra hnot
    rw [← get_eq_none_iff, get_baseSet, if_pos hk, hget] at hnot
    cases hnot

theorem sequence_of_sound {id : String} {s : HistoryState}
    (h : HistorySound α schema id s) (hid : id ≠ "") : Sequence schema id s.events := by
  have htold : ∀ ev ∈ s.events, ev.aggregateID = id ∧
      ∃ verb, ∃ (src : Entity α) (now : Instant), Told schema verb src now ev := h.told
  refine ⟨fun ev hev => (htold ev hev).1, fun ev hev => ?_, fun ev hev => ?_, fun ev hev => ?_,
    h.revisions.imp fun hlt => Int.ofNat_lt.2 hlt,
    fun hrole => (h.baseRevisions hrole).imp fun hlt => Int.ofNat_lt.2 hlt, ?_⟩
  · obtain ⟨rfl, verb, src, now, ht⟩ := htold ev hev
    exact wellFormed_of_told hid ht
  · obtain ⟨-, verb, src, now, ht⟩ := htold ev hev
    exact ownedBlocks_of_told ht
  · obtain ⟨-, verb, src, now, ht⟩ := htold ev hev
    exact editsOwn_of_told ht
  · rcases eq_or_ne schema.sharedBaseBusinessColumns [] with hnil | hne
    · refine .inl fun ev hev hcar => hcar.1 ?_
      rw [eq_nil_iff_get]
      intro k
      rw [get_baseSet, hnil, if_neg not_mem_nil]
    have hrole : schema.sharedBase.isSome := by
      rw [Option.isSome_iff_ne_none]
      intro hs
      simp [sharedBaseBusinessColumns, hs] at hne
    rcases eq_or_ne s.events [] with hev | hev
    · exact .inl fun ev hmem => by simp [hev] at hmem
    obtain ⟨r, -, hall⟩ := h.row hev
    by_cases hlink : r.link schema = ""
    · exact .inl fun ev hmem hcar => hcar.2.1 (((hall ev hmem).2.2 hrole).1.trans hlink)
    refine .inr fun ev hmem => ?_
    obtain ⟨hbid, hpos, -⟩ := (hall ev hmem).2.2 hrole
    obtain ⟨-, verb, src, now, ht⟩ := htold ev hmem
    have hkeys : ∀ k ∈ schema.sharedBaseBusinessColumns,
        k ∈ (baseSet schema ev.payload).keys := fun k hk =>
      mem_keys_baseSet_of_told ht (hbid ▸ hlink) hk
    refine ⟨⟨fun hnil => ?_, hbid ▸ hlink, hpos⟩, hkeys⟩
    obtain ⟨k, hk⟩ := exists_mem_of_ne_nil _ hne
    simpa [hnil] using hkeys k hk

end

end Omnicore.Query
