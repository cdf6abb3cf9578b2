import Omnicore.Query.Tombstones
import Omnicore.Write.History

/-!
# Delivering the events of a history

What the obligations of one event leave of the document of its aggregate, for events as the write
engine builds them: the pipeline of the payload, and the shared part of it once more through the
fan-out, which finds the document by its link to the base.

## Main results

* `projectOwnView_ok`, `fanOutSharedBasePayload_ok` : the document after either obligation.
* `processEvent_ok` : the document after all of them, where no repair is due.
-/

namespace Omnicore.Query

open Omnicore.Core Domain Write List AssocMap Option SchemaDecl

/-! ### The payloads of the engine -/

/-- Each block of a payload holds children of its owner. -/
structure OwnedBlocks (schema : SchemaDecl) (ev : Payload) : Prop where
  own : ∀ t ∈ ev.children.keys, ∃ c, schema.resolveAggregateChild t = some (c, false)
  base : ∀ t ∈ ev.baseChildren.keys, ∃ c, schema.resolveAggregateChild t = some (c, true)

section

variable {α : Type} [PersistentItem α] {schema : TableSchema} {verb : RoleVerb} {src : Entity α}
  {now : Instant} {ev : OutboxRow}

theorem wellFormed_of_told (hid : ev.aggregateID ≠ "")
    (h : Told schema verb src now ev) : WellFormed schema ev.payload := by
  obtain ⟨-, hids, -, root, stamps, rootFields, hpay, hfields, hroot⟩ := h
  rw [hpay]
  refine wellFormed_buildWritePayload (hids ▸ hid) (fun k hk => ?_) hroot
  simp only [ownColumns, cons_append, mem_cons, mem_append]
  rcases hfields k hk with hk | hk | ⟨-, hpk, hk⟩
  · tauto
  · have : k ∈ schema.archivedAt.toList := by simpa using hk
    tauto
  · obtain ⟨link, hlink, rfl⟩ := map_eq_some_iff.1 hk
    have hne : link.parentIDColumn ≠ schema.idColumn := by
      simpa [sharedPK, hlink] using hpk
    have : link.parentIDColumn ∈ (schema.sharedBase.toList.map (·.parentIDColumn)).filter
        (· ≠ schema.idColumn) := by simp [hlink, hne]
    tauto

theorem resolve_of_mem_keys_childrenBlocks {root : Option (AggregateRoot α)}
    {eventType : EventType} {stamps : CascadeStamps} {fromBase : Bool} {t : String}
    (h : t ∈ (childrenBlocks schema root eventType stamps fromBase).keys) :
    ∃ c, schema.resolveAggregateChild t = some (c, fromBase) := by
  cases root with
  | none => cases h
  | some ar =>
    rw [childrenBlocks_some] at h
    obtain ⟨p, hp, rfl⟩ := mem_map.1 h
    obtain ⟨q, -, hq⟩ := mem_filterMap.1 hp
    obtain ⟨list, hlist, rfl⟩ := map_eq_some_iff.1 hq
    obtain ⟨⟨c, b⟩, hc, hb⟩ := bind_eq_some_iff.1 hlist
    split_ifs at hb with hif
    exact ⟨c, hif.1 ▸ hc⟩

theorem ownedBlocks_of_told (h : Told schema verb src now ev) : OwnedBlocks schema ev.payload := by
  obtain ⟨-, -, -, root, stamps, rootFields, hpay, -, -⟩ := h
  rw [hpay]
  exact ⟨fun t ht => resolve_of_mem_keys_childrenBlocks ht,
    fun t ht => resolve_of_mem_keys_childrenBlocks ht⟩

theorem op_of_told (h : Told schema verb src now ev) {c : ChildSchema}
    (hc : c ∈ schema.allChildren) {op : ChildPayload}
    (hop : op ∈ (ev.payload.children.get c.typeName).getD [] ∨
      op ∈ (ev.payload.baseChildren.get c.typeName).getD []) :
    ∃ cascade, ∃ it : AggregateItemEntry α, op = childPayload c verb.eventType cascade it := by
  obtain ⟨-, -, -, root, stamps, rootFields, hpay, -, hroot⟩ := h
  rw [hpay] at hop
  obtain ⟨isBase, hres⟩ := schema.resolveAggregateChild_of_mem hc
  have hblock : ∀ fromBase, op ∈ ((childrenBlocks schema root verb.eventType stamps
      fromBase).get c.typeName).getD [] → ∃ cascade, ∃ it : AggregateItemEntry α,
        op = childPayload c verb.eventType cascade it := by
    intro fromBase hop
    cases root with
    | none => simp [childrenBlocks] at hop
    | some ar =>
      rw [childrenBlocks_some, get_filterMap (fun _ _ => rfl) (hroot ar rfl)] at hop
      cases hitems : ar.aggregates.get c.typeName with
      | none => simp [hitems] at hop
      | some items =>
        simp only [hitems, bind_some, hres] at hop
        split_ifs at hop
        · obtain ⟨it, -, rfl⟩ := mem_map.1 hop
          exact ⟨_, it, rfl⟩
        · cases hop
  exact hop.elim (hblock false) (hblock true)

theorem createdAt_not_mem {col : String} (h : schema.createdAt = some col) :
    col ∉ columns schema.fields ∧ col ∉ schema.archivedAt ∧ col ∉ schema.updatedAt ∧
      ∀ link, schema.sharedBase = some link → schema.sharedPK = false →
        col ≠ link.parentIDColumn := by
  have hnodup : schema.ownColumns.Nodup := schema.keys_nodup.of_append_left.of_append_left
  rw [ownColumns, h, toList_some, append_assoc, append_assoc,
    nodup_append, singleton_append, nodup_cons] at hnodup
  obtain ⟨-, ⟨hafter, -⟩, hbefore⟩ := hnodup
  have hbefore : ∀ k, k ∈ schema.idColumn :: columns schema.fields ++
      schema.siblings.flatMap (columns ·.fields) ++ schema.archivedAt.toList → k ≠ col :=
    fun k hk => hbefore k hk col mem_cons_self
  refine ⟨fun hmem => hbefore col (by simp [hmem]) rfl, fun hmem => ?_, fun hmem => ?_,
    fun link hlink hpk he => ?_⟩
  · exact hbefore col (by simp [mem_def.1 hmem]) rfl
  · exact hafter (by simp [mem_def.1 hmem])
  · have hne : link.parentIDColumn ≠ schema.idColumn := by
      simpa [sharedPK, hlink] using hpk
    exact hafter (by simp [hlink, he, hne])

theorem get_createdAt_of_told (h : Told schema verb src now ev) {col : String}
    (hcol : schema.createdAt = some col) :
    ev.payload.scalars.get col = if verb = .insert then some (.time now) else none := by
  obtain ⟨-, -, -, root, stamps, rootFields, hpay, hfields, -⟩ := h
  obtain ⟨hfld, harch, hupd, hlink⟩ := createdAt_not_mem hcol
  obtain ⟨-, hsib⟩ := createdAt_ne hcol
  have hbase := (schema.ownColumn_disjoint (createdAt_mem_ownColumns hcol)).1
  -- neither the statement, the siblings nor the base know the column
  have hroot : col ∉ keys (schema.siblings.foldl
      (fun out sib => setAll out (syncFields sib.fields src.values))
      (redactSyncColumns schema.fields rootFields)) := by
    refine foldlRecOn (motive := fun m => col ∉ AssocMap.keys m) _ _ (fun hk => ?_)
      fun out ih sib hmem hk => ?_
    · rcases hfields col (by simpa using hk) with hk | hk | ⟨-, hpk, hk⟩
      · exact hfld hk
      · exact harch hk
      · obtain ⟨link, hs, he⟩ := map_eq_some_iff.1 hk
        exact hlink link hs hpk he.symm
    · rcases mem_keys_setAll.1 hk with hk | hk
      · exact ih hk
      · exact hsib (mem_flatMap.2 ⟨sib, hmem, by simpa using hk⟩)
  have hshared : col ∉ (sharedBaseScalars schema src ev.payload.ids.baseID).keys := by
    intro hk
    cases hs : schema.sharedBase with
    | none => simp [sharedBaseScalars, hs] at hk
    | some link =>
      have hcols : col ∉ columns link.base.fields := by
        simpa [sharedBaseBusinessColumns, hs] using hbase
      simp only [sharedBaseScalars, hs] at hk
      split_ifs at hk with hid hpk
      · cases hk
      · simp [hcols] at hk
      · have hne := hlink link hs (by simpa using hpk)
        simp [hcols, hne] at hk
  have hmanaged : verb ≠ .insert → col ∉ keys (managedTimestamps schema now verb.eventType) := by
    intro hverb
    cases verb with
    | insert => exact absurd rfl hverb
    | update => simpa [RoleVerb.eventType, managedTimestamps, AssocMap.keys] using hupd
    | archive | unarchive =>
      simpa [RoleVerb.eventType, managedTimestamps, AssocMap.keys] using harch
    | delete vetoed => exact not_mem_nil
  rw [hpay]
  simp only [buildWritePayload]
  split_ifs with hverb
  · have hrest : col ∉ AssocMap.keys (schema.updatedAt.toList.map (·, Value.time now) ++
        schema.archivedAt.toList.map (·, .null)) := by
      simpa [AssocMap.keys] using ⟨hupd, harch⟩
    subst hverb
    simp only [RoleVerb.eventType, managedTimestamps, hcol, toList_some, map_cons,
      map_nil, cons_append, nil_append]
    exact get_setAll_cons_self hrest
  · rw [get_setAll_of_not_mem _ (hmanaged hverb), get_setAll_of_not_mem _ hshared]
    exact (get_eq_none_iff ..).2 hroot

end

section

variable {schema : TableSchema} {ev : Payload} {d d' : Doc} {c : ChildSchema}

theorem resolveAggregateChild_own (hc : c ∈ schema.children) :
    schema.resolveAggregateChild c.typeName = some (c, false) := by
  rw [resolveAggregateChild]
  cases hfind : schema.children.find? (·.typeName = c.typeName) with
  | none => simpa using find?_eq_none.1 hfind c hc
  | some c' =>
    have ht : c'.typeName = c.typeName := by simpa using find?_some hfind
    have hc' := mem_of_find?_eq_some hfind
    rw [schema.typeName_injOn (mem_append_left _ hc') (mem_append_left _ hc) ht]

theorem OwnedBlocks.get_baseChildren (h : OwnedBlocks schema ev)
    (hc : c ∈ schema.children) : ev.baseChildren.get c.typeName = none := by
  rw [get_eq_none_iff]
  intro hmem
  obtain ⟨c', hc'⟩ := h.base _ hmem
  rw [resolveAggregateChild_own hc] at hc'
  cases hc'

/-! ### The fan-out -/

theorem get_baseSet (k : String) :
    (baseSet schema ev).get k =
      if k ∈ schema.sharedBaseBusinessColumns then (ev.scalars.get k).map .lit else none := by
  have hrev : schema.revisionColumn ∉ schema.sharedBaseBusinessColumns := fun h =>
    schema.revision_not_key (mem_append_left _ (mem_append_right _ h))
  rw [baseSet, get_map _ fun _ v => Expr.lit v,
    get_filter_key _ fun k => decide (k ≠ schema.revisionColumn ∧
      k ∈ schema.sharedBaseBusinessColumns)]
  by_cases hk : k ∈ schema.sharedBaseBusinessColumns
  · have hne : k ≠ schema.revisionColumn := fun he => hrev (he ▸ hk)
    simp [hk, hne]
  · simp [hk]

/-- The columns of the base in the fan-out. -/
abbrev fanOutSet (schema : SchemaDecl) (ev : Payload) : SetStage :=
  schema.sharedBaseBusinessColumns.filterMap fun c => (ev.scalars.get c).map fun v => (c, .lit v)

theorem setsColumns_fanOutSet (schema : SchemaDecl) (ev : Payload) :
    SetsColumns schema.sharedBaseBusinessColumns (fanOutSet schema ev) := by
  intro p hp
  obtain ⟨c, hc, hp⟩ := mem_filterMap.1 hp
  obtain ⟨v, -, rfl⟩ := map_eq_some_iff.1 hp
  exact ⟨hc, .inl ⟨v, rfl⟩⟩

theorem get_fanOutSet (schema : TableSchema) (ev : Payload) (k : String) :
    (fanOutSet schema ev).get k = (baseSet schema ev).get k := by
  have hfan := get_filterMap_ofKeys schema.sharedBaseBusinessColumns
    (fun c => (ev.scalars.get c).map Expr.lit) k
  simp only [Option.map_map, Function.comp_def] at hfan
  rw [hfan, get_baseSet]

/-- The shared part of an event carries columns of the base exactly if the event does. -/
theorem carriesBase_fanOutSet :
    CarriesBase (fanOutSet schema ev) ev.ids ↔ CarriesBase (baseSet schema ev) ev.ids := by
  simp only [CarriesBase, ne_eq, eq_nil_iff_get, get_fanOutSet]

/-- The document after the shared part of an event. -/
structure FannedOut (schema : TableSchema) (ev : Payload) (d d' : Doc) : Prop where
  baseRevision : d'.get docBaseRevisionField =
    if CarriesBase (baseSet schema.toSchemaDecl ev) ev.ids then
      some (.int (max (storedRevision d docBaseRevisionField) ev.ids.baseRevision))
    else d.get docBaseRevisionField
  base : ∀ k e, (baseSet schema.toSchemaDecl ev).get k = some e → d'.get k =
    if CarriesBase (baseSet schema.toSchemaDecl ev) ev.ids ∧
        storedRevision d docBaseRevisionField ≤ ev.ids.baseRevision then columnValue e
    else d.get k
  segments : ∀ c ∈ schema.allChildren, HasSegment d' c.segment ∧ segment d' c.segment =
    ((ev.baseChildren.get c.typeName).getD []).foldl (editOp c ev.ids.baseRevision true)
      (segment d c.segment)
  other : ∀ k, k ∉ (baseSet schema.toSchemaDecl ev).keys →
    k ∉ schema.baseChildren.map ChildSchema.segment → k ≠ docBaseRevisionField →
    d'.get k = d.get k

theorem get_childStages_base {groups : AssocMap String (List ChildPayload)}
    (h : ∀ t ∈ groups.keys, ∃ c, schema.resolveAggregateChild t = some (c, true))
    {revision : ℕ} {guarded : Bool} {k : String}
    (hk : k ∉ schema.baseChildren.map ChildSchema.segment) :
    ∀ stage ∈ childStages schema groups revision guarded, get stage k = none := by
  intro stage hstage
  rw [childStages, mem_flatMap] at hstage
  obtain ⟨⟨t, ops⟩, hmem, hstage⟩ := hstage
  obtain ⟨c, hc⟩ := h t (mem_map_of_mem hmem)
  simp only [hc] at hstage
  obtain ⟨op, -, hop⟩ := mem_filterMap.1 hstage
  obtain ⟨id, -, rfl⟩ := map_eq_some_iff.1 hop
  have hbase : c ∈ schema.baseChildren := by
    rw [resolveAggregateChild] at hc
    split at hc
    · cases hc
    · obtain ⟨c', hc', he⟩ := map_eq_some_iff.1 hc
      cases he
      exact mem_of_find?_eq_some hc'
  have hne : c.segment ≠ k := fun he => hk (he ▸ mem_map_of_mem hbase)
  rw [get_cons, if_neg hne]
  rfl

theorem not_mem_baseSegments {k : String} (hk : k ∉ schema.allChildren.map ChildSchema.segment) :
    k ∉ schema.baseChildren.map ChildSchema.segment := fun h =>
  hk (by rw [allChildren, map_append]; exact mem_append_right _ h)

/-- **The fan-out of an event** goes through on a document of its schema. -/
theorem buildFanOutStages_run (hev : WellFormed schema ev)
    (hblocks : OwnedBlocks schema ev) (hd : Projectable schema d) :
    ∃ d', runStages d (buildFanOutStages schema ev) = .ok d' ∧ FannedOut schema ev d d' := by
  have hbaseKey := baseRevision_not_key schema
  have hget := get_fanOutSet schema ev
  have hkeys : ∀ k, k ∉ (baseSet schema ev).keys → k ∉ (fanOutSet schema ev).keys :=
    fun k hk => by
    rw [← get_eq_none_iff, hget]
    exact (get_eq_none_iff ..).2 hk
  have hset := setsColumns_fanOutSet schema ev
  obtain ⟨d1, hrun1, hmark1, hval1, hframe1⟩ := baseStages_run ev.ids hset hbaseKey.2.1
    hd.baseRevision
  simp only [carriesBase_fanOutSet] at hmark1 hval1
  -- the columns leave the segments alone
  have hseg1 : ∀ c ∈ schema.allChildren, d1.get c.segment = d.get c.segment := by
    intro c hc
    have hmem := mem_map_of_mem (f := ChildSchema.segment) hc
    exact hframe1 _ (hset.not_mem_keys fun h => schema.baseColumn_not_segment h hmem)
      fun he => hbaseKey.2.2 (he ▸ hmem)
  obtain ⟨d', hrun, hseg, hframe⟩ := baseChildStages_run (d := d1) hev.baseChildren
      ev.ids.baseRevision fun c hc => by
    rw [HasSegment, hseg1 c hc]
    exact hd.segments c hc
  refine ⟨d', (runStages_append hrun1).trans hrun, ?_, fun k e he => ?_, fun c hc => ?_,
    fun k hbase hsegk hne => ?_⟩
  · rw [hframe _ hbaseKey.2.2, hmark1]
  · have hcol := (setsColumns_baseSet schema ev _ (mem_of_get he)).1
    rw [hframe k (schema.baseColumn_not_segment hcol), hval1 k e ((hget k).trans he)]
  · obtain ⟨hhas, hval⟩ := hseg c hc
    exact ⟨hhas, by rw [hval, segment, segment, hseg1 c hc]⟩
  · rw [runStages_get hrun (get_childStages_base hblocks.base hsegk), hframe1 k (hkeys k hbase) hne]

theorem FannedOut.projectable (h : FannedOut schema ev d d') (hd : Projectable schema d) :
    Projectable schema d' := by
  refine ⟨?_, ?_, fun c hc => (h.segments c hc).1⟩
  · have hkey := revision_not_key schema
    rw [Watermarked, h.other _ ((setsColumns_baseSet _ _).not_mem_keys hkey.2.1)
      (not_mem_baseSegments hkey.2.2) (by decide)]
    exact hd.revision
  · rw [Watermarked, h.baseRevision]
    split_ifs
    · exact .inr ⟨_, rfl⟩
    · exact hd.baseRevision

end

/-! ### The obligations of an event -/

section

variable {view : EntityView} {s : ViewState} {ev : OutboxRow}

theorem projectOwnView_ok (hev : WellFormed view.schema ev.payload)
    (hkeep : shouldDeleteFromView ev.eventType view.deleteOnArchive = false)
    (hdoc : ∀ d ∈ s.doc, Projectable view.schema d) :
    ∃ d', projectOwnView view s ev =
        .ok (checkTombstone { s with doc := some d' } ev.payload.ids.revision) ∧
      Projected view.schema ev.payload (s.doc.getD [("_id", .str ev.aggregateID)]) d' := by
  obtain ⟨d', happly, hproj⟩ := applyProjection_event hev hdoc
  refine ⟨d', ?_, hproj⟩
  simp only [projectOwnView, hkeep]
  rw [happly]
  rfl

theorem fanOutSharedBasePayload_ok (hev : WellFormed view.schema ev.payload)
    (hblocks : OwnedBlocks view.schema ev.payload) (hdoc : ∀ d ∈ s.doc, Projectable view.schema d) :
    ∃ doc', fanOutSharedBasePayload view s ev = .ok { s with doc := doc' } ∧
      (doc' = s.doc ∨ ∃ d d', s.doc = some d ∧ doc' = some d' ∧
        FannedOut view.schema ev.payload d d') := by
  rw [fanOutSharedBasePayload]
  split
  · exact ⟨s.doc, rfl, .inl rfl⟩
  · dsimp only
    split_ifs with hfound
    · obtain ⟨-, hany⟩ := hfound
      cases hd : s.doc with
      | none => simp [hd] at hany
      | some d =>
        obtain ⟨d', hrun, hfan⟩ := buildFanOutStages_run hev hblocks (hdoc d hd)
        refine ⟨some d', ?_, .inr ⟨d, d', rfl, rfl, hfan⟩⟩
        simp only [applyProjection, hrun]
        rfl
    · exact ⟨s.doc, rfl, .inl rfl⟩

/-- **The obligations of an event** after a projection that went through, where no repair is due:
the document is the projected one, or the fan-out was applied to it. -/
theorem processEvent_ok {s1 : ViewState} (rows : Database) (hev : WellFormed view.schema ev.payload)
    (hblocks : OwnedBlocks view.schema ev.payload)
    (hproj : projectOwnView view s ev = .ok s1) (hdoc : ∀ d ∈ s1.doc, Projectable view.schema d)
    (hfree : ofRole view ev = true → ev.eventType = .inserted ∨ ev.eventType = .unarchived →
      s1.stampedBaseRevision ≤ ev.payload.ids.baseRevision) :
    ∃ s', processEvent view rows s ev = .ok s' ∧ s'.tombstone = s1.tombstone ∧
      s'.stampedBaseRevision ≤ max s1.stampedBaseRevision ev.payload.ids.baseRevision ∧
      (s'.doc = s1.doc ∨ ∃ d d', s1.doc = some d ∧ s'.doc = some d' ∧
        FannedOut view.schema ev.payload d d') := by
  by_cases hrole : ofRole view ev = true
  · obtain ⟨doc', hfan, hdoc'⟩ := fanOutSharedBasePayload_ok (s := { s1 with
        stampedBaseRevision := max s1.stampedBaseRevision ev.payload.ids.baseRevision })
      hev hblocks hdoc
    refine ⟨{ s1 with
        doc := doc'
        stampedBaseRevision := max s1.stampedBaseRevision ev.payload.ids.baseRevision },
      Except.bind_ok.2 ⟨s1, hproj, ?_⟩, rfl, le_rfl, hdoc'⟩
    rw [if_pos hrole]
    refine Except.bind_ok.2 ⟨_, hfan, ?_⟩
    split_ifs with hrepair
    · have hle := hfree hrole hrepair.2
      exact if_pos (max_le hle le_rfl)
    · rfl
  · exact ⟨s1, Except.bind_ok.2 ⟨s1, hproj, if_neg hrole⟩, rfl, le_max_left .., .inl rfl⟩

end

end Omnicore.Query
