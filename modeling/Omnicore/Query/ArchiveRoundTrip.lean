import Omnicore.Query.Scopes

/-!
# Archiving and restoring behind a view that deletes archived documents

A view declared with `DeleteOnArchive` removes the document of an archived aggregate, and the event
of the restore has to build it again.  That event names the children only as restored or untouched,
and carries no creation instant.

## Main results

* `restored_iff_composed` : after the history of an aggregate up to a restore, the document has the
  children and the creation instant of the composed one exactly when there are none.
-/

namespace Omnicore.Query

open Omnicore.Core Write List Option PNat

/-- The ids of the elements of a collection. -/
def segmentIDs (d : Doc) (c : ChildSchema) : List (Option Value) :=
  (segment d c.segment).map (·.path c.idColumn)

/-- Two documents show the same children and the same creation instant. -/
structure SameShape (schema : SchemaDecl) (d d' : Doc) : Prop where
  ids : ∀ c ∈ schema.allChildren, ∀ v, v ∈ segmentIDs d c ↔ v ∈ segmentIDs d' c
  createdAt : ∀ col ∈ schema.createdAt, d.get col = d'.get col

instance (schema : SchemaDecl) (d d' : Doc) : Decidable (SameShape schema d d') :=
  decidable_of_iff ((∀ c ∈ schema.allChildren,
        segmentIDs d c ⊆ segmentIDs d' c ∧ segmentIDs d' c ⊆ segmentIDs d c) ∧
      ∀ col ∈ schema.createdAt, d.get col = d'.get col)
    ⟨fun h => ⟨fun c hc _ => ⟨fun hv => (h.1 c hc).1 hv, fun hv => (h.1 c hc).2 hv⟩, h.2⟩,
      fun h => ⟨fun c hc => ⟨fun _ hv => (h.ids c hc _).1 hv, fun _ hv => (h.ids c hc _).2 hv⟩,
        h.createdAt⟩⟩

/-- No row of a child is visible: of an own one, or of one of the base. -/
def NoChildren (schema : SchemaDecl) (db : Database) (id : String) : Prop :=
  (∀ c ∈ schema.children, fetchWhere db c id false = []) ∧
  ∀ r ∈ db.root schema.table id, ∀ c ∈ schema.baseChildren,
    fetchWhere db c (r.link schema) false = []

/-! ### The event of a restore -/

section

variable {α : Type} [PersistentItem α] {schema : TableSchema} {src : Entity α} {now : Instant}
  {ev : OutboxRow} {c : ChildSchema} {op : ChildPayload}

theorem not_putsIn_of_unarchive (h : Told schema .unarchive src now ev)
    (hc : c ∈ schema.allChildren)
    (hop : op ∈ (ev.payload.children.get c.typeName).getD [] ∨
      op ∈ (ev.payload.baseChildren.get c.typeName).getD []) : Editable c op ∧ ¬PutsIn op := by
  obtain ⟨cascade, it, rfl⟩ := op_of_told h hc hop
  refine ⟨editable_childPayload hc, ?_⟩
  simp only [PutsIn, childPayload, childOpName, RoleVerb.eventType]
  split_ifs <;> simp_all

theorem foldl_editOp_nil {ops : List ChildPayload} {revision : ℕ} {guarded : Bool}
    (h : ∀ op ∈ ops, Editable c op ∧ ¬PutsIn op) :
    ops.foldl (editOp c revision guarded) [] = [] := by
  rw [eq_nil_iff_forall_not_mem]
  intro v hv
  rcases exists_of_path_foldl_editOp (fun op hop => (h op hop).1) hv with
    ⟨_, hnil, -⟩ | ⟨op, hop, hput, -⟩
  · cases hnil
  · exact (h op hop).2 hput

/-- The document of a restore on a missing one has no children and no creation instant. -/
theorem Projected.of_unarchive (h : Told schema .unarchive src now ev) {id : String}
    {d : Doc} (hproj : Projected schema ev.payload [("_id", .str id)] d) :
    (∀ c ∈ schema.allChildren, segment d c.segment = []) ∧
      ∀ col ∈ schema.createdAt, d.get col = none := by
  refine ⟨fun c hc => ?_, fun col hcol => ?_⟩
  · have hnew : segment [("_id", .str id)] c.segment = [] := by
      rw [segment, get_new (mem_append_right _ (mem_map_of_mem hc))]
    rw [segment, hproj.segments c hc]
    simp only [segmentAfter, hnew]
    rw [foldl_editOp_nil fun op hop => not_putsIn_of_unarchive h hc (.inl hop), ite_self,
      foldl_editOp_nil fun op hop => not_putsIn_of_unarchive h hc (.inr hop)]
  · have hkey : col ∈ schema.documentKeys :=
      mem_append_left _ (mem_append_left _ (createdAt_mem_ownColumns hcol))
    rw [hproj.createdAt hcol, get_createdAt_of_told h hcol]
    exact get_new hkey

theorem FannedOut.of_unarchive (h : Told schema .unarchive src now ev) {d d' : Doc}
    (hfan : FannedOut schema ev.payload d d')
    (hd : (∀ c ∈ schema.allChildren, segment d c.segment = []) ∧
      ∀ col ∈ schema.createdAt, d.get col = none) :
    (∀ c ∈ schema.allChildren, segment d' c.segment = []) ∧
      ∀ col ∈ schema.createdAt, d'.get col = none := by
  refine ⟨fun c hc => ?_, fun col hcol => ?_⟩
  · rw [(hfan.segments c hc).2, hd.1 c hc]
    exact foldl_editOp_nil fun op hop => not_putsIn_of_unarchive h hc (.inr hop)
  · obtain ⟨hbase, hseg, -, hrev⟩ := ownColumn_ne (createdAt_mem_ownColumns hcol)
    rw [hfan.other col hbase (fun hmem => hseg (baseSegment_mem hmem)) hrev]
    exact hd.2 col hcol

end

/-! ### The document up to the archive -/

section

variable {view : EntityView} {rev createdAt : ℕ} {s : ViewState}

/-- The document is one that the guarded deletion at a revision removes, where the incarnation test
can read its birth. -/
structure Removable (schema : TableSchema) (rev createdAt : ℕ) (d : Doc) : Prop where
  projectable : Projectable schema d
  revision : storedRevision d docRevisionField ≤ rev
  born : IncarnationReadable schema.toSchemaDecl → createdAt = 0 ∨ BornAt createdAt d

theorem Removable.deleteGuarded {schema : TableSchema} {d : Doc}
    (h : Removable schema rev createdAt d) (hread : IncarnationReadable schema) :
    deleteGuarded (some d) rev createdAt = none :=
  deleteGuarded_of_le h.projectable.revision h.revision (h.born hread)

variable {schema : TableSchema} {ev : OutboxRow} {d d' : Doc}

theorem removable_new (id : String) : Removable schema rev createdAt [("_id", .str id)] := by
  refine ⟨projectable_new, ?_, fun _ => .inr rfl⟩
  have hrev : storedRevision [("_id", .str id)] docRevisionField = -1 := rfl
  omega

theorem Projected.removable (hproj : Projected schema ev.payload d d')
    (hev : WellFormed schema ev.payload) (hle : ev.payload.ids.revision ≤ rev)
    (hlife : OfLife schema createdAt ev.payload)
    (hnone : schema.createdAt = none → createdAt = 0) (hd : Removable schema rev createdAt d) :
    Removable schema rev createdAt d' := by
  refine ⟨hproj.projectable hd.projectable, ?_, fun hread => ?_⟩
  · have := hd.revision
    rw [hproj.storedRevision]
    omega
  · cases hcol : schema.createdAt with
    | none => exact .inl (hnone hcol)
    | some col => exact (hd.born hread).imp_right (hproj.bornAt hread hcol hev hlife)

theorem FannedOut.removable (hfan : FannedOut schema ev.payload d d')
    (hblocks : OwnedBlocks schema ev.payload)
    (hnone : schema.createdAt = none → createdAt = 0) (hd : Removable schema rev createdAt d) :
    Removable schema rev createdAt d' := by
  refine ⟨hfan.projectable hd.projectable, ?_, fun hread => ?_⟩
  · have hrev : storedRevision d' docRevisionField = storedRevision d docRevisionField :=
      congrArg GuardedLog.Replica.revision (hfan.ownOf hblocks)
    exact hrev ▸ hd.revision
  · cases hcol : schema.createdAt with
    | none => exact .inl (hnone hcol)
    | some col =>
      refine (hd.born hread).imp_right fun hborn => ?_
      have hkeep : d'.get incarnationField = d.get incarnationField := by
        rcases hread col hcol with rfl | hfree
        · obtain ⟨hbase, hseg, -, hbrev⟩ := ownColumn_ne (createdAt_mem_ownColumns hcol)
          exact hfan.other _ hbase (fun hmem => hseg (baseSegment_mem hmem)) hbrev
        · refine hfan.other _ ((setsColumns_baseSet _ _).not_mem_keys fun hmem => hfree ?_)
            (fun hmem => hfree (mem_append_right _ (baseSegment_mem hmem))) (by decide)
          exact mem_append_left _ (mem_append_right _ hmem)
      exact hborn.congr hkeep

/-- What the delivery of an insert or an update relies on. -/
structure Upserts (view : EntityView) (rev createdAt : ℕ) (ev : OutboxRow) : Prop where
  wellFormed : WellFormed view.schema ev.payload
  blocks : OwnedBlocks view.schema.toSchemaDecl ev.payload
  verb : ev.eventType = .inserted ∨ ev.eventType = .updated
  revision : ev.payload.ids.revision ≤ rev
  life : OfLife view.schema.toSchemaDecl createdAt ev.payload

/-- Inserts and updates delivered in order leave a document that the archive removes. -/
theorem deliver_upserts (rows : Database) (hnone : view.schema.createdAt = none → createdAt = 0)
    {evs : List OutboxRow} (hevs : ∀ ev ∈ evs, Upserts view rev createdAt ev)
    (hbase : view.schema.sharedBase.isSome → evs.Pairwise fun e f => baseRev e < baseRev f)
    (hstamp : ∀ ev ∈ evs, ofRole view ev = true →
      s.stampedBaseRevision ≤ ev.payload.ids.baseRevision)
    (htomb : s.tombstone = none) (hdoc : ∀ d ∈ s.doc, Removable view.schema rev createdAt d) :
    ∃ s', evs.foldlM (processEvent view rows) s = .ok s' ∧ s'.tombstone = none ∧
      (∀ d ∈ s'.doc, Removable view.schema rev createdAt d) ∧
      ∀ n, s.stampedBaseRevision ≤ n → (∀ ev ∈ evs, ev.payload.ids.baseRevision ≤ n) →
        s'.stampedBaseRevision ≤ n := by
  induction evs generalizing s with
  | nil => exact ⟨s, rfl, htomb, hdoc, fun _ h _ => h⟩
  | cons ev evs ih =>
    obtain ⟨hev, hevs⟩ := forall_mem_cons.1 hevs
    obtain ⟨hst, hstamp⟩ := forall_mem_cons.1 hstamp
    have hkeep : shouldDeleteFromView ev.eventType view.deleteOnArchive = false := by
      rcases hev.verb with h | h <;> rw [h] <;> rfl
    obtain ⟨d', hok, hproj⟩ := projectOwnView_ok hev.wellFormed hkeep
      fun d hd => (hdoc d hd).projectable
    have hcheck : checkTombstone { s with doc := some d' } ev.payload.ids.revision =
        { s with doc := some d' } := by
      simp [checkTombstone, htomb]
    rw [hcheck] at hok
    have hold : Removable view.schema rev createdAt
        (s.doc.getD [("_id", .str ev.aggregateID)]) := by
      cases hd : s.doc with
      | none => exact removable_new ..
      | some d => exact hdoc d hd
    have hrem := hproj.removable hev.wellFormed hev.revision hev.life hnone hold
    obtain ⟨s1, hs1, htomb1, hle, hdoc1⟩ := processEvent_ok rows hev.wellFormed hev.blocks hok
      (fun _ h => mem_some.1 h ▸ hrem.projectable) fun hrole _ => hst hrole
    have hle : s1.stampedBaseRevision ≤ max s.stampedBaseRevision ev.payload.ids.baseRevision := hle
    have hrem1 : ∀ d ∈ s1.doc, Removable view.schema rev createdAt d := by
      intro d hd
      rcases hdoc1 with heq | ⟨_, d2, ⟨⟩, heq, hfan⟩
      · rw [heq] at hd
        exact mem_some.1 hd ▸ hrem
      · rw [heq] at hd
        exact mem_some.1 hd ▸ hfan.removable hev.blocks hnone hrem
    -- the revisions of the base grow, so no later insert is behind what was recorded
    have hstamp1 : ∀ f ∈ evs, ofRole view f = true →
        s1.stampedBaseRevision ≤ f.payload.ids.baseRevision := by
      intro f hf hrole
      have hlt := (pairwise_cons.1 (hbase (isSome_of_ofRole hrole))).1 f hf
      have := hstamp f hf hrole
      simp only [baseRev] at hlt
      omega
    obtain ⟨s', hs', htomb', hdoc', hbound⟩ := ih hevs
      (fun hsb => (pairwise_cons.1 (hbase hsb)).2) hstamp1 (htomb1.trans htomb) hrem1
    refine ⟨s', ?_, htomb', hdoc', fun n hn hall => ?_⟩
    · rw [foldlM_cons, hs1]
      exact hs'
    · obtain ⟨hn1, hall⟩ := forall_mem_cons.1 hall
      exact hbound n (by omega) hall

theorem deliver_archived (rows : Database) (hview : view.deleteOnArchive = true)
    (hev : WellFormed view.schema ev.payload)
    (hblocks : OwnedBlocks view.schema ev.payload) (hverb : ev.eventType = .archived)
    (hrev : 0 < ev.payload.ids.revision) (htomb : s.tombstone = none)
    (hdoc : ∀ d ∈ s.doc, Removable view.schema ev.payload.ids.revision
      (ev.payload.ids.createdAt.elim 0 val) d) :
    ∃ s', processEvent view rows s ev = .ok s' ∧
      (∃ t ∈ s'.tombstone, t.revision = ev.payload.ids.revision) ∧
      s'.stampedBaseRevision ≤ max s.stampedBaseRevision ev.payload.ids.baseRevision ∧
      (∀ d ∈ s'.doc, Projectable view.schema d) ∧
      (IncarnationReadable view.schema → s'.doc = none) := by
  have hdel : shouldDeleteFromView ev.eventType view.deleteOnArchive = true := by
    rw [hverb, hview]
    rfl
  have hproj : projectOwnView view s ev = .ok { s with
      tombstone := some ⟨ev.payload.ids.revision, ev.payload.ids.createdAt.elim 0 val⟩
      doc := deleteGuarded s.doc ev.payload.ids.revision
        (ev.payload.ids.createdAt.elim 0 val) } := by
    simp [projectOwnView, hdel, applyDelete, hrev.ne', htomb, stampTombstone]
  have hsub : ∀ d ∈ deleteGuarded s.doc ev.payload.ids.revision
      (ev.payload.ids.createdAt.elim 0 val), d ∈ s.doc :=
    fun d hd => (mem_filter_iff.1 hd).1
  obtain ⟨s', hs', htomb', hle, hdoc'⟩ := processEvent_ok rows hev hblocks hproj
    (fun d hd => (hdoc d (hsub d hd)).projectable) fun _ h => by simp [hverb] at h
  refine ⟨s', hs', ⟨_, htomb', rfl⟩, hle, fun d hd => ?_, fun hread => ?_⟩
  · rcases hdoc' with heq | ⟨d1, d2, hd1, hd2, hfan⟩
    · rw [heq] at hd
      exact (hdoc d (hsub d hd)).projectable
    · obtain rfl := mem_unique hd hd2
      exact hfan.projectable (hdoc d1 (hsub d1 hd1)).projectable
  · have hgone : deleteGuarded s.doc ev.payload.ids.revision
        (ev.payload.ids.createdAt.elim 0 val) = none := by
      cases hd : s.doc with
      | none => rfl
      | some d => exact (hdoc d hd).deleteGuarded hread
    rcases hdoc' with heq | ⟨d1, d2, hd1, -⟩
    · exact heq.trans hgone
    · cases hd1.symm.trans hgone

theorem deliver_unarchived {α : Type} [PersistentItem α] {src : Entity α} {now : Instant}
    (rows : Database) (htold : Told view.schema .unarchive src now ev)
    (hev : WellFormed view.schema ev.payload) (hblocks : OwnedBlocks view.schema ev.payload)
    (htomb : ∃ t ∈ s.tombstone, t.revision < ev.payload.ids.revision)
    (hstamp : ofRole view ev = true → s.stampedBaseRevision ≤ ev.payload.ids.baseRevision)
    (hdoc : ∀ d ∈ s.doc, Projectable view.schema d) :
    ∃ s' d, processEvent view rows s ev = .ok s' ∧ s'.doc = some d ∧
      (s.doc = none → (∀ c ∈ view.schema.allChildren, segment d c.segment = []) ∧
        ∀ col ∈ view.schema.createdAt, d.get col = none) := by
  have hverb : ev.eventType = .unarchived := htold.1
  have hkeep : shouldDeleteFromView ev.eventType view.deleteOnArchive = false := by
    rw [hverb]
    rfl
  obtain ⟨t, ht, hlt⟩ := htomb
  obtain ⟨d', hok, hproj⟩ := projectOwnView_ok hev hkeep hdoc
  have hcheck : checkTombstone { s with doc := some d' } ev.payload.ids.revision =
      { s with doc := some d' } := by
    simp [checkTombstone, mem_def.1 ht, hlt]
  rw [hcheck] at hok
  have hproj' := hproj.projectable (projectable_getD hdoc)
  obtain ⟨s', hs', -, -, hdoc'⟩ := processEvent_ok rows hev hblocks hok
    (fun _ h => mem_some.1 h ▸ hproj') fun hrole _ => hstamp hrole
  have hnew : s.doc = none → (∀ c ∈ view.schema.allChildren, segment d' c.segment = []) ∧
      ∀ col ∈ view.schema.createdAt, d'.get col = none := by
    intro hnone
    rw [hnone, getD_none] at hproj
    exact hproj.of_unarchive htold
  rcases hdoc' with heq | ⟨_, d2, ⟨⟩, heq, hfan⟩
  · exact ⟨s', d', hs', heq, hnew⟩
  · exact ⟨s', d2, hs', heq, fun hnone => hfan.of_unarchive htold (hnew hnone)⟩

end

/-! ### The round trip -/

theorem ofLife_of_told {α : Type} [PersistentItem α] {schema : TableSchema} {verb : RoleVerb}
    {src : Entity α} {now : Instant} {ev : OutboxRow} (h : Told schema verb src now ev) :
    OfLife schema (ev.payload.ids.createdAt.elim 0 val) ev.payload := by
  intro col hcol v hv
  rw [get_createdAt_of_told h hcol] at hv
  split_ifs at hv with hverb
  obtain rfl := some.inj hv
  rw [h.2.2.1 hverb, mem_def.1 hcol]
  exact bornAt_of_get (.inr rfl)

theorem deliver_restored {α : Type} [PersistentItem α] {view : EntityView} {src : Entity α}
    {now : Instant} {id : String} {body : List OutboxRow} {archived restored : OutboxRow}
    (rows : Database) (hview : view.deleteOnArchive = true)
    (hseq : Sequence view.schema id (body ++ [archived, restored])) (hne : body ≠ [])
    (hverb : ∀ ev ∈ body, ev.eventType.IsBody) (harch : archived.eventType = .archived)
    (htold : Told view.schema .unarchive src now restored) {born : Option Instant}
    (hborn : ∀ ev ∈ body ++ [archived, restored], ev.payload.ids.createdAt = born ∧
      OfLife view.schema (born.elim 0 val) ev.payload)
    (hnone : view.schema.createdAt = none → born = none) {recorded : ℕ}
    (hrecorded : ∀ ev ∈ body ++ [archived, restored], ofRole view ev = true →
      recorded ≤ ev.payload.ids.baseRevision) :
    ∃ s d, (body ++ [archived, restored]).foldlM (processEvent view rows)
        { stampedBaseRevision := recorded } = .ok s ∧ s.doc = some d ∧
      (IncarnationReadable view.schema →
        (∀ c ∈ view.schema.allChildren, segment d c.segment = []) ∧
          ∀ col ∈ view.schema.createdAt, d.get col = none) := by
  have harchived : archived ∈ body ++ [archived, restored] := by simp
  have hrestored : restored ∈ body ++ [archived, restored] := by simp
  obtain ⟨-, hrevs, hbefore⟩ := pairwise_append.1 hseq.revisions
  have hlt : archived.payload.ids.revision < restored.payload.ids.revision := by
    have := (pairwise_cons.1 hrevs).1 restored (by simp)
    simp only [ownRev] at this
    omega
  have hle : ∀ ev ∈ body, ev.payload.ids.revision < archived.payload.ids.revision := by
    intro ev hev
    have := hbefore ev hev archived (by simp)
    simp only [ownRev] at this
    omega
  have hbase : view.schema.sharedBase.isSome → body.Pairwise (fun e f => baseRev e < baseRev f) ∧
      (∀ ev ∈ body, ev.payload.ids.baseRevision ≤ restored.payload.ids.baseRevision) ∧
      archived.payload.ids.baseRevision ≤ restored.payload.ids.baseRevision := by
    intro hsb
    obtain ⟨hpair, htail, hcross⟩ := pairwise_append.1 (hseq.baseRevisions hsb)
    refine ⟨hpair, fun ev hev => ?_, ?_⟩
    · have := hcross ev hev restored (by simp)
      simp only [baseRev] at this
      omega
    · have := (pairwise_cons.1 htail).1 restored (by simp)
      simp only [baseRev] at this
      omega
  obtain ⟨s1, hs1, htomb1, hdoc1, hstamp1⟩ := deliver_upserts
    (s := { stampedBaseRevision := recorded }) rows
    (fun h => by rw [hnone h]; rfl : view.schema.createdAt = none → born.elim 0 val = 0)
    (fun ev hev => ⟨hseq.wellFormed ev (by simp [hev]), hseq.blocks ev (by simp [hev]),
      hverb ev hev, (hle ev hev).le, (hborn ev (by simp [hev])).2⟩)
    (fun hsb => (hbase hsb).1) (fun ev hev => hrecorded ev (by simp [hev])) rfl nofun
  have hpos : 0 < archived.payload.ids.revision := by
    obtain ⟨ev, hev⟩ := exists_mem_of_ne_nil body hne
    exact Nat.zero_lt_of_lt (hle ev hev)
  have hcreated := (hborn archived harchived).1
  obtain ⟨s2, hs2, ⟨t, ht, hrev⟩, hstamp2, hdoc2, hgone⟩ := deliver_archived rows hview
    (hseq.wellFormed archived harchived) (hseq.blocks archived harchived) harch hpos htomb1
    (by rwa [hcreated])
  have hstamp : ofRole view restored = true →
      s2.stampedBaseRevision ≤ restored.payload.ids.baseRevision := by
    intro hrole
    obtain ⟨-, hbody, harchbase⟩ := hbase (isSome_of_ofRole hrole)
    have := hstamp1 _ (hrecorded restored hrestored hrole) hbody
    omega
  obtain ⟨s, d, hs, hd, hnew⟩ := deliver_unarchived rows htold (hseq.wellFormed restored hrestored)
    (hseq.blocks restored hrestored) ⟨t, ht, hrev ▸ hlt⟩ hstamp hdoc2
  refine ⟨s, d, ?_, hd, fun hread => hnew (hgone hread)⟩
  rw [foldlM_append, hs1]
  exact Except.bind_ok.2 ⟨s1, rfl, Except.bind_ok.2 ⟨s2, hs2, Except.bind_ok.2 ⟨s, hs, rfl⟩⟩⟩

/-- A document without children and creation instant is the composed one exactly when that has none
either. -/
theorem sameShape_iff {schema : TableSchema} {db : Database} {id : String} {r : RootRow}
    {d d' : Doc} (hr : db.root schema.table id = some r)
    (hd : IncarnationReadable schema →
      (∀ c ∈ schema.allChildren, segment d c.segment = []) ∧
        ∀ col ∈ schema.createdAt, d.get col = none)
    (hown : ∀ c ∈ schema.children, d'.get c.segment = some (childSegment db c id false))
    (hbase : ∀ c ∈ schema.baseChildren,
      d'.get c.segment = some (childSegment db c (r.link schema) false))
    (hcreated : ∀ col ∈ schema.createdAt, (d'.get col).isSome) :
    IncarnationReadable schema ∧ SameShape schema d d' ↔
      schema.createdAt = none ∧ NoChildren schema db id := by
  have hempty : ∀ c owner, d'.get c.segment = some (childSegment db c owner false) →
      ((∀ v, v ∉ segmentIDs d' c) ↔ fetchWhere db c owner false = []) := by
    intro c owner hget
    rw [← eq_nil_iff_forall_not_mem, segmentIDs, segment, hget]
    simp [childSegment]
  constructor
  · rintro ⟨hread, hsame⟩
    obtain ⟨hsegs, hnone⟩ := hd hread
    have hno : ∀ c ∈ schema.allChildren, ∀ v, v ∉ segmentIDs d' c := by
      intro c hc v hv
      have := (hsame.ids c hc v).2 hv
      simp [segmentIDs, hsegs c hc] at this
    refine ⟨?_, fun c hc => ?_, fun r' hr' c hc => ?_⟩
    · by_contra hne
      obtain ⟨col, hcol⟩ := ne_none_iff_exists'.1 hne
      have hget := hsame.createdAt col hcol
      rw [hnone col hcol] at hget
      simpa [← hget] using hcreated col hcol
    · exact (hempty c id (hown c hc)).1 (hno c (mem_append_left _ hc))
    · obtain rfl := mem_unique hr hr'
      exact (hempty c _ (hbase c hc)).1 (hno c (mem_append_right _ hc))
  · rintro ⟨hnocol, hnochild⟩
    have hread : IncarnationReadable schema := by
      intro col hcol
      rw [hnocol] at hcol
      cases hcol
    refine ⟨hread, fun c hc v => ?_, fun col hcol => ?_⟩
    · have hno' : v ∉ segmentIDs d' c := by
        rcases mem_append.1 hc with hc | hc
        · exact (hempty c id (hown c hc)).2 (hnochild.1 c hc) v
        · exact (hempty c _ (hbase c hc)).2 (hnochild.2 r hr c hc) v
      have hno : v ∉ segmentIDs d c := by simp [segmentIDs, (hd hread).1 c hc]
      exact iff_of_false hno hno'
    · rw [hnocol] at hcol
      cases hcol

/-- **The document after a restore** has the children and the creation instant of the composed
one, its birth being readable, exactly when the schema has no creation instant and no child is
visible. -/
theorem restored_iff_composed {α : Type} [PersistentItem α] {env : Env} {view : EntityView}
    (hview : view.deleteOnArchive = true) {id : String} (hid : id ≠ "") {db rows : Database}
    {writes : List (HistoryAction α)} {src : Entity α} {now : Instant} {hist : HistoryState}
    (hrun : (historyMachine env view.schema.toSchemaDecl id).run { db }
      (writes ++ [.write .unarchive src now]) = some hist) {updates : ℕ}
    (hshape : hist.events.map (·.eventType) =
      .inserted :: replicate updates .updated ++ [.archived, .unarchived]) {recorded : ℕ}
    (hrecorded : ∀ ev ∈ hist.events.head?, recorded ≤ ev.payload.ids.baseRevision) :
    ∃ s d d', hist.events.foldlM (processEvent view rows) { stampedBaseRevision := recorded } =
        .ok s ∧ s.doc = some d ∧ compose view.toView hist.db id = some d' ∧
      (IncarnationReadable view.schema.toSchemaDecl ∧ SameShape view.schema.toSchemaDecl d d' ↔
        view.schema.createdAt = none ∧ NoChildren view.schema.toSchemaDecl hist.db id) := by
  have hsound := historySound_of_run hrun
  have hseq : Sequence view.schema id hist.events := sequence_of_sound hsound hid
  rw [Machine.run_append, bind_eq_some_iff] at hrun
  obtain ⟨h1, -, hlast⟩ := hrun
  rw [Machine.run_cons, bind_eq_some_iff] at hlast
  obtain ⟨_, hstep, ⟨⟩⟩ := hlast
  cases historyMove_of_step hstep with
  | @write _ _ _ db' restored hadm hid' hcom =>
    have hsplit : h1.events.map (·.eventType) ++ [restored.eventType] =
        (.inserted :: replicate updates .updated ++ [.archived]) ++ [.unarchived] := by
      simpa using hshape
    obtain ⟨body, rest, hevents, hbody, hrest⟩ := map_eq_append_iff.1 (append_inj' hsplit rfl).1
    obtain ⟨archived, rfl, harch⟩ := map_eq_singleton_iff.1 hrest
    have hhist : h1.events ++ [restored] = body ++ [archived, restored] := by simp [hevents]
    simp only [hhist] at hsound hseq hrecorded ⊢
    have hverb : ∀ ev ∈ body, ev.eventType = .inserted ∨ ev.eventType = .updated := by
      intro ev hev
      have := hbody ▸ mem_map_of_mem (f := OutboxRow.eventType) hev
      simp only [mem_cons, mem_replicate] at this
      tauto
    -- the history starts with the insert
    obtain ⟨first, body', rfl, hfirst, -⟩ := map_eq_cons_iff.1 hbody
    have hmem : restored ∈ first :: body' ++ [archived, restored] := by simp
    obtain ⟨r, hr, hall⟩ := hsound.row (ne_nil_of_mem hmem)
    have hborn : ∀ ev ∈ first :: body' ++ [archived, restored],
        ev.payload.ids.createdAt = r.createdAt ∧
        OfLife view.schema (r.createdAt.elim 0 val) ev.payload := by
      intro ev hev
      obtain ⟨-, verb, src, now, ht⟩ := hsound.told ev hev
      have hcreated := (hall ev hev).2.1
      exact ⟨hcreated, hcreated ▸ ofLife_of_told ht⟩
    have hnone : view.schema.createdAt = none → r.createdAt = none := by
      intro hnocol
      obtain ⟨-, verb, src, now, ht⟩ := hsound.told first (by simp)
      have hinsert : verb = .insert := by
        have hevent : verb.eventType = .inserted := ht.1.symm.trans hfirst
        cases verb <;> first | rfl | cases hevent
      rw [← (hborn first (by simp)).1, ht.2.2.1 hinsert, hnocol]
      rfl
    have hstamp : ∀ ev ∈ first :: body' ++ [archived, restored], ofRole view ev = true →
        recorded ≤ ev.payload.ids.baseRevision := by
      intro ev hev hrole
      have hle := hrecorded first (by simp)
      rcases mem_cons.1 hev with rfl | hev
      · exact hle
      · have := (pairwise_cons.1 (hseq.baseRevisions (isSome_of_ofRole hrole))).1 ev hev
        simp only [baseRev] at this
        omega
    obtain ⟨s, d, hs, hd, hnew⟩ := deliver_restored rows hview hseq (cons_ne_nil _ _) hverb
      harch hcom.told hborn hnone hstamp
    obtain ⟨r', hr', hafter, -⟩ := hcom.row
    rw [hid'] at hr'
    obtain rfl := mem_unique hr hr'
    obtain ⟨_, -, -, -, -, -, hactive⟩ := hafter
    have hvisible : (!view.deleteOnArchive || r.isActive view.schema) = true := by
      simp [RootRow.isActive, hactive rfl]
    obtain ⟨d', hd', hown, hbase, hcreated⟩ := compose_entity view.deleteOnArchive hr hvisible
    rw [hview] at hown hbase
    exact ⟨s, d, d', hs, hd, hd', sameShape_iff hr hnew hown hbase hcreated⟩

/-- Customers whose creation is not recorded. -/
def undatedCustomers : TableSchema where
  toSchemaDecl := { customers.toSchemaDecl with createdAt := none }

/-- A customer without addresses comes back as it is composed. -/
theorem undated_customer_restored :
    ∃ hist ∈ (historyMachine customerEnv undatedCustomers.toSchemaDecl "c").run { db := {} }
        ([.write .insert (customer "" 0 []) (.ms 1), .write .archive (customer "c" 1 []) (.ms 2)] ++
          [.write .unarchive (customer "c" 2 []) 3]),
      ∃ s d d', hist.events.foldlM (processEvent ⟨undatedCustomers, true⟩ {}) {} = .ok s ∧
        s.doc = some d ∧
        compose (EntityView.toView ⟨undatedCustomers, true⟩) hist.db "c" = some d' ∧
        SameShape undatedCustomers.toSchemaDecl d d' := by
  have hview : EntityView.deleteOnArchive ⟨undatedCustomers, true⟩ = true := rfl
  refine Machine.exists_run (fun hist => hist.events.map (·.eventType) =
      .inserted :: replicate 0 .updated ++ [.archived, .unarchived] ∧
      ∀ c ∈ undatedCustomers.children, fetchWhere hist.db c "c" false = []) (by decide +kernel)
    fun hist hhist hshape => ?_
  obtain ⟨s, d, d', hs, hd, hd', hiff⟩ :=
    restored_iff_composed hview (by decide) hhist hshape.1 fun _ _ => Nat.zero_le _
  exact ⟨s, d, d', hs, hd, hd', (hiff.2 ⟨rfl, hshape.2, nofun⟩).2⟩

/-- A customer is inserted with an address, and then archived. -/
def archivedCustomer : List (HistoryAction Address) :=
  [.write .insert (customer "" 0 [⟨{ street := "Elm" }, .added, .added⟩]) (.ms 1),
    .write .archive (customer "c" 1 [⟨{ id := "a", street := "Elm" }, .constructor, .constructor⟩])
      (.ms 2)]

/-- The customer as it is loaded for the restore. -/
def customerToRestore : Entity Address :=
  customer "c" 2
    [⟨{ id := "a", street := "Elm", archivedAt := some (.ms 2) }, .constructor, .constructor⟩]

/-- The restored customer has lost its address and its creation instant. -/
theorem restored_customer_incomplete :
    ∃ hist ∈ (historyMachine customerEnv customers.toSchemaDecl "c").run { db := {} }
        (archivedCustomer ++ [.write .unarchive customerToRestore 3]),
      hist.events.map (·.eventType) = [.inserted, .archived, .unarchived] ∧
      ∃ s ∈ (hist.events.foldlM (processEvent ⟨customers, true⟩ {}) {}).toOption, ∃ d ∈ s.doc,
        ∃ d' ∈ compose (EntityView.toView ⟨customers, true⟩) hist.db "c",
          ¬SameShape customers.toSchemaDecl d d' := by
  decide +kernel

end Omnicore.Query
