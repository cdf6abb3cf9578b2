import Omnicore.Query.Replay

/-!
# Redelivered events

The broker delivers the events of an aggregate in order and at least once.  A view that keeps
archived documents projects every event but the deletion, each behind the watermark of the document:
an event that comes again is either older than the document and dropped, or the last one applied,
and then its columns and the edits of its children are applied once more.

## Main definitions

* `OwnHistory` : the events of one aggregate that such a view projects.
* `SameOwn` : two documents with the same own scope.

## Main results

* `projectAll_ownOf` : the own scope after some deliveries is that of a guarded replica.
* `redeliveries_harmless` : with redeliveries at any points, the own scope is that of one delivery
  of each event.
-/

namespace Omnicore.Query

open Omnicore.Core Write GuardedLog AssocMap Option List

/-- The events of one aggregate that a view with archived documents projects, with growing
revisions. -/
structure OwnHistory (schema : TableSchema) (id : String) (evs : List OutboxRow) : Prop where
  id : ∀ ev ∈ evs, ev.aggregateID = id
  verb : ∀ ev ∈ evs, ev.eventType ≠ .deleted
  wellFormed : ∀ ev ∈ evs, WellFormed schema ev.payload
  blocks : ∀ ev ∈ evs, OwnedBlocks schema.toSchemaDecl ev.payload
  editsOwn : ∀ ev ∈ evs, EditsOwn schema ev.payload
  revisions : evs.Pairwise fun e f => ownRev e < ownRev f

/-- Project some deliveries on the document of an aggregate. -/
def projectAll (view : EntityView) (s : ViewState) (deliveries : List OutboxRow) :
    Except String ViewState :=
  deliveries.foldlM (projectOwnView view) s

/-- Two documents with the same watermark, columns and own children, these even in the same
order. -/
structure SameOwn (schema : TableSchema) (doc doc' : Option Doc) : Prop where
  isSome : doc.isSome = doc'.isSome
  revision : doc.bind (get · docRevisionField) = doc'.bind (get · docRevisionField)
  columns : ∀ k ∈ schema.ownColumns, doc.bind (get · k) = doc'.bind (get · k)
  elements : ∀ c ∈ schema.children, doc.map (segment · c.segment) = doc'.map (segment · c.segment)

section

variable {view : EntityView} {id : String} {evs deliveries : List OutboxRow} {s s' : ViewState}

/-- **The own scope after some deliveries.** -/
theorem projectAll_ownOf (hview : view.deleteOnArchive = false)
    (hist : OwnHistory view.schema id evs) (hmem : ∀ ev ∈ deliveries, ev ∈ evs)
    (hs : Kept view.schema s) :
    ∃ s', projectAll view s deliveries = .ok s' ∧ Kept view.schema s' ∧
      ownOf view.schema (docOf id s') = deliveries.foldl
        (Replica.apply ownRev (actOwn view.schema)) (ownOf view.schema (docOf id s)) := by
  induction deliveries generalizing s with
  | nil => exact ⟨s, rfl, hs, rfl⟩
  | cons ev deliveries ih =>
    have hev := hmem ev mem_cons_self
    have hkeep : shouldDeleteFromView ev.eventType view.deleteOnArchive = false := by
      rw [hview]
      cases hverb : ev.eventType with
      | deleted => exact absurd hverb (hist.verb ev hev)
      | _ => rfl
    obtain ⟨s1, hproj, hs1, -, hown, -⟩ := projectOwnView_applies (hist.id ev hev)
      (hist.wellFormed ev hev) (hist.blocks ev hev) hkeep hs
    obtain ⟨s', hall, hs', hfold⟩ := ih (fun f hf => hmem f (mem_cons_of_mem _ hf)) hs1
    refine ⟨s', ?_, hs', ?_⟩
    · rw [projectAll, foldlM_cons, hproj]
      exact hall
    · rw [hfold, hown, foldl_cons]

theorem Kept.revision_eq (hs : Kept view.schema s) (id : String) :
    s.doc.bind (get · docRevisionField) =
      if storedRevision (docOf id s) docRevisionField = -1 then none
      else some (.int (storedRevision (docOf id s) docRevisionField)) := by
  cases hd : s.doc with
  | none =>
    have hnone : storedRevision (docOf id s) docRevisionField = -1 := by
      rw [docOf, hd]
      rfl
    rw [hnone, if_pos rfl]
    rfl
  | some d =>
    have hdoc : docOf id s = d := by rw [docOf, hd, getD_some]
    have hle := hs.revision d hd
    rw [hdoc, if_neg (by omega)]
    rcases (hs.projectable d hd).revision with hnone | ⟨n, hn⟩
    · exact absurd hle (by rw [storedRevision, hnone]; decide)
    · rw [storedRevision_of_get hn]
      exact hn

theorem Kept.isSome_eq (hs : Kept view.schema s) (id : String) :
    s.doc.isSome = decide (storedRevision (docOf id s) docRevisionField ≠ -1) := by
  cases hd : s.doc with
  | none => rw [docOf, hd]; rfl
  | some d =>
    have hle := hs.revision d hd
    rw [docOf, hd, getD_some, isSome_some, decide_eq_true]
    omega

theorem sameOwn_of_ownOf (hs : Kept view.schema s) (hs' : Kept view.schema s')
    (h : ownOf view.schema (docOf id s) = ownOf view.schema (docOf id s')) :
    SameOwn view.schema s.doc s'.doc := by
  have hrev : storedRevision (docOf id s) docRevisionField =
      storedRevision (docOf id s') docRevisionField := congrArg Replica.revision h
  have hsome : s.doc.isSome = s'.doc.isSome := by
    rw [hs.isSome_eq id, hs'.isSome_eq id, hrev]
  have hmark : s.doc.bind (get · docRevisionField) = s'.doc.bind (get · docRevisionField) := by
    rw [hs.revision_eq id, hs'.revision_eq id, hrev]
  cases hd : s.doc with
  | none =>
    have hd' : s'.doc = none := by simpa [hd] using hsome.symm
    rw [hd']
    exact ⟨rfl, rfl, fun _ _ => rfl, fun _ _ => rfl⟩
  | some d =>
    obtain ⟨d', hd'⟩ : ∃ d', s'.doc = some d' := isSome_iff_exists.1 (hsome ▸ by rw [hd]; rfl)
    rw [hd, hd'] at hmark
    have hdoc : docOf id s = d := by rw [docOf, hd, getD_some]
    have hdoc' : docOf id s' = d' := by rw [docOf, hd', getD_some]
    rw [hdoc, hdoc'] at h
    rw [hd']
    refine ⟨rfl, hmark, fun k hk => ?_, fun c hc => ?_⟩
    · exact congrFun (congrArg (OwnScope.columns ∘ Replica.value) h) ⟨k, hk⟩
    · have hseg : segment d c.segment = segment d' c.segment :=
        congrFun (congrArg (OwnScope.elements ∘ Replica.value) h) ⟨c, hc⟩
      exact congrArg some hseg

end

/-- **Redeliveries are harmless**: whatever the points at which events delivered before come again,
the document has the own scope that one delivery of each event in order leaves. -/
theorem redeliveries_harmless (view : EntityView) (hview : view.deleteOnArchive = false)
    {id : String} {evs deliveries : List OutboxRow} (hist : OwnHistory view.schema id evs)
    (h : Redelivers [] evs deliveries) (stamped : ℕ) :
    ∃ s s', projectAll view { stampedBaseRevision := stamped } deliveries = .ok s ∧
      projectAll view { stampedBaseRevision := stamped } evs = .ok s' ∧
      SameOwn view.schema s.doc s'.doc := by
  have hstart : Kept view.schema { stampedBaseRevision := stamped } := ⟨rfl, nofun, nofun⟩
  obtain ⟨s, hs, hkept, hown⟩ := projectAll_ownOf hview hist (fun ev hev => h.mem ev hev) hstart
  obtain ⟨s', hs', hkept', hown'⟩ := projectAll_ownOf hview hist (fun ev hev => hev) hstart
  -- no document has a watermark below every revision
  have hnone : (ownOf view.schema (docOf id { stampedBaseRevision := stamped })).revision = -1 :=
    rfl
  have hlog : Growing ownRev (ownOf view.schema (docOf id { stampedBaseRevision := stamped }))
      evs := by
    refine ⟨hist.revisions, fun ev _ => ?_⟩
    rw [hnone, ownRev]
    omega
  have hself : ∀ ev ∈ evs, Covers (actOwn view.schema) ev ev := fun ev hev =>
    covers_self (hist.editsOwn ev hev)
  have honce := (Redelivers.refl [] evs).foldl_apply hlog hself
  have hsame : ownOf view.schema (docOf id s) = ownOf view.schema (docOf id s') :=
    hown.trans ((h.foldl_apply hlog hself).trans (honce.symm.trans hown'.symm))
  exact ⟨s, s', hs, hs', sameOwn_of_ownOf hkept hkept' hsame⟩

theorem ownHistory_of_sound {α : Type} [PersistentItem α] {schema : TableSchema} {id : String}
    {s : HistoryState} (h : HistorySound α schema id s) (hid : id ≠ "")
    (hverb : ∀ ev ∈ s.events, ev.eventType ≠ .deleted) : OwnHistory schema id s.events := by
  have hseq := sequence_of_sound h hid
  exact ⟨hseq.id, hverb, hseq.wellFormed, hseq.blocks, hseq.editsOwn, hseq.revisions⟩

/-- The insert of a customer comes again before the update and, with it, after the archive. -/
theorem redelivered_customer :
    ∃ hist ∈ (historyMachine customerEnv customers.toSchemaDecl "c").run { db := {} }
        (customerWrites ++ [.write .archive (customer "c" 2 []) 3]),
      ∃ inserted updated archived, hist.events = [inserted, updated, archived] ∧
      ∃ s s', projectAll ⟨customers, false⟩ {}
          [inserted, inserted, updated, archived, inserted, updated, archived] = .ok s ∧
        projectAll ⟨customers, false⟩ {} hist.events = .ok s' ∧
        SameOwn customers s.doc s'.doc := by
  refine Machine.exists_run (fun hist => hist.events.length = 3 ∧
    ∀ ev ∈ hist.events, ev.eventType ≠ .deleted) (by decide +kernel)
    fun hist hwrites ⟨hlen, hverb⟩ => ?_
  have hhist := ownHistory_of_sound (historySound_of_run hwrites) (by decide) hverb
  obtain ⟨inserted, updated, archived, hevs⟩ := length_eq_three.1 hlen
  rw [hevs] at hhist
  refine ⟨inserted, updated, archived, hevs, ?_⟩
  rw [hevs]
  refine redeliveries_harmless ⟨customers, false⟩ rfl hhist (.next (.again ?_ (.next
    (.next (.again ?_ (.again ?_ (.again ?_ (.nil _)))))))) 0
  all_goals simp

end Omnicore.Query
