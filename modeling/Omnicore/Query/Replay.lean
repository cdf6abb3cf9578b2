import Omnicore.Query.ProjectionFailures
import Omnicore.Query.Scopes

/-!
# Parked events and their replay

The events of an aggregate are delivered in order.  An event that exhausts its attempts is parked in
the ledger, where a later parked event of the aggregate takes the place of the earlier one, and the
consumer goes on.  Sweeps replay the parked events at any later time.

An attempt discharges its obligations one after another, and each of them can fail before or after
its write has reached the store.  The attempt itself is one step.

## Main definitions

* `attempt` : the obligations of one event, each with its own outcome.
* `replayMachine` : the delivery of the events of one aggregate, with parking and replay.
* `Agree` : two documents have the same columns and the same own children.

## Main results

* `ReplayInv.step` : along every run whose attempts overtake only events whose edits they repeat,
  the document holds what the events up to some point leave in order.
-/

namespace Omnicore.Query

open Omnicore.Core Write GuardedLog List Function Replica Ledger AssocMap Except

/-! ### Attempts -/

/-- How an obligation ends: confirmed, written with the confirmation lost, or not written. -/
inductive Reach where
  | done
  | lost
  | failed
  deriving DecidableEq, Repr

/-- One obligation with its outcome, and its name where it is to be reported as failed. -/
def discharge (what : String) (reach : Reach) (run : Except String ViewState) (s : ViewState) :
    ViewState × List String :=
  match reach, run with
  | .done, .ok s' => (s', [])
  | .lost, .ok s' => (s', [what])
  | _, _ => (s, [what])

/-- The outcome of each obligation of one attempt, those about other documents that fail, and the
rows a repair composes from. -/
structure Attempt where
  project : Reach := .done
  stamp : Reach := .done
  fanOut : Reach := .done
  repair : Reach := .done
  others : List String := []
  rows : Database := {}

variable (view : EntityView) (group topic : String) (s : ViewState) (ev : OutboxRow)

/-- The obligations of a role's event that follow the projection; a failed stamp blocks the
fan-out. -/
def attemptShared (a : Attempt) : ViewState × List String :=
  let stamp := discharge "stamp base revision (shared-base fan-out blocked)" a.stamp
    (.ok { s with
      stampedBaseRevision := max s.stampedBaseRevision ev.payload.ids.baseRevision }) s
  let fanOut := if stamp.2 = [] then
      discharge "shared-base payload fan-out" a.fanOut
        (fanOutSharedBasePayload view stamp.1 ev) stamp.1
    else (stamp.1, [])
  let repair := if 0 < ev.payload.ids.baseRevision ∧
        (ev.eventType = .inserted ∨ ev.eventType = .unarchived) then
      discharge "base-revision pull repair" a.repair
        (pullSideRepair view a.rows fanOut.1 ev) fanOut.1
    else (fanOut.1, [])
  (repair.1, stamp.2 ++ fanOut.2 ++ a.others ++ repair.2)

/-- One attempt at the obligations of an event on the document of its aggregate: each is made even
when another one failed. -/
def attempt (a : Attempt) : ViewState × List String :=
  let own := discharge "own views" a.project (projectOwnView view s ev) s
  let rest := if ofRole view ev then attemptShared view own.1 ev a else (own.1, a.others)
  (rest.1, own.2 ++ rest.2)

theorem attempt_of_processEvent {view : EntityView} {rows : Database} {s s' : ViewState}
    {ev : OutboxRow} (h : processEvent view rows s ev = .ok s') :
    attempt view s ev { rows } = (s', []) := by
  simp only [processEvent, bind_ok] at h
  obtain ⟨s1, h1, h⟩ := h
  simp only [attempt, attemptShared, h1, discharge]
  split_ifs at h ⊢ with hrole hrepair
  · simp only [bind_ok] at h
    obtain ⟨s2, h2, h⟩ := h
    simp [h2, h]
  · simp only [bind_ok] at h
    obtain ⟨s2, h2, h⟩ := h
    cases h
    simp [h2]
  · cases h
    rfl

/-! ### The machine -/

/-- The event type in a message. -/
def eventTypeName : EventType → String
  | .inserted => "INSERTED"
  | .updated => "UPDATED"
  | .archived => "ARCHIVED"
  | .unarchived => "UNARCHIVED"
  | .deleted => "DELETED"

/-- The message of an outbox row. -/
def messageOf : KafkaEvent OutboxRow where
  aggregateType := ev.aggregateType
  eventType := eventTypeName ev.eventType
  aggregateID := ev.aggregateID
  topic := topic
  payload := some ev

/-- The ledger row of a parked event. -/
def parkedRecord (errs : List String) : ProjectionFailureRecord OutboxRow where
  kind := .event
  consumerGroup := group
  topic := topic
  aggregateType := ev.aggregateType
  eventType := eventTypeName ev.eventType
  aggregateID := ev.aggregateID
  payload := some ev
  error := String.intercalate "\n" errs

variable {ι : Type} [DecidableEq ι]

/-- The document, the events still to deliver with the failed attempts at the next one, and the
ledger with the sweeps of the pods. -/
structure ReplayState (ι : Type) where
  view : ViewState
  undelivered : List OutboxRow
  failures : ℕ := 0
  ledger : Ledger.State ι OutboxRow

/-- An attempt at the next event, or a step of a sweep. -/
inductive ReplayAction (ι : Type) where
  | process (i : ι) (a : Attempt)
  | list (i : ι)
  | replay (i : ι) (a : Attempt)
  | resolve (i : ι)
  | resolveFailed (i : ι)

/-- The delivery of the events of one aggregate to one view by the consumers of a group. -/
def replayMachine : Machine (ReplayState ι) (ReplayAction ι) where
  step s a :=
    let sweep := step some (fun _ : ι => group) s.ledger
    match a with
    | .process i a =>
      match s.undelivered with
      | [] => none
      | ev :: rest =>
        let r := attempt view s.view ev a
        let ledger := (process some (fun _ => group) s.ledger i (messageOf topic ev) r.2).1
        if r.2 = [] then some { view := r.1, undelivered := rest, ledger }
        else if s.failures + 1 < processRetries then
          some { s with view := r.1, failures := s.failures + 1 }
        else
          match recordProjectionFailure s.ledger.rows (parkedRecord group topic ev r.2) with
          | .ok rows => some { view := r.1, undelivered := rest, ledger := { s.ledger with rows } }
          | .error _ => none
    | .replay i a =>
      ((s.ledger.sweeps i).pending.head?.bind (·.payload)).bind fun ev =>
        let r := attempt view s.view ev a
        (sweep (.replay i r.2)).map fun ledger => { s with view := r.1, ledger }
    | .list i => (sweep (.list i)).map fun ledger => { s with ledger }
    | .resolve i => (sweep (.resolve i)).map fun ledger => { s with ledger }
    | .resolveFailed i => (sweep (.resolveFailed i)).map fun ledger => { s with ledger }

/-- Before the first delivery: no document, and the revision recorded for the identity so far. -/
def replayStart (stamped : ℕ) (evs : List OutboxRow) : ReplayState ι where
  view := { stampedBaseRevision := stamped }
  undelivered := evs
  ledger := { sweeps := fun _ => {} }

/-- Every event was delivered, and no row of the ledger is pending. -/
def ReplayState.Finished (s : ReplayState ι) : Prop :=
  s.undelivered = [] ∧ ∀ r ∈ s.ledger.rows, r.resolved = true

instance (s : ReplayState ι) : Decidable s.Finished := inferInstanceAs (Decidable (_ ∧ _))

/-- The columns and the own children of two documents are the same. -/
structure Agree (schema : TableSchema) (doc doc' : Option Doc) : Prop where
  isSome : doc.isSome = doc'.isSome
  columns : ∀ k ∈ schema.ownColumns ++ schema.sharedBaseBusinessColumns,
    doc.bind (get · k) = doc'.bind (get · k)
  elements : ∀ c ∈ schema.children, doc.map (segment · c.segment) = doc'.map (segment · c.segment)

instance (schema : TableSchema) (doc doc' : Option Doc) : Decidable (Agree schema doc doc') :=
  decidable_of_iff (doc.isSome = doc'.isSome ∧
      (∀ k ∈ schema.ownColumns ++ schema.sharedBaseBusinessColumns,
        doc.bind (get · k) = doc'.bind (get · k)) ∧
      ∀ c ∈ schema.children, doc.map (segment · c.segment) = doc'.map (segment · c.segment))
    ⟨fun h => ⟨h.1, h.2.1, h.2.2⟩, fun h => ⟨h.1, h.2, h.3⟩⟩

/-! ### The condition -/

/-- The document of an aggregate, the one a missing one starts from. -/
def docOf (id : String) (s : ViewState) : Doc := s.doc.getD [("_id", .str id)]

/-- An attempt is safe: it repairs nothing, and where it reaches the document, its event overtakes
every event the document has not seen. -/
structure Safe (view : EntityView) (evs : List OutboxRow) (s : ViewState) (ev : OutboxRow)
    (a : Attempt) : Prop where
  repair : ofRole view ev = true → ev.eventType = .inserted →
    s.stampedBaseRevision ≤ ev.payload.ids.baseRevision
  overtakes : a.project ≠ .failed → ∀ f ∈ evs,
    storedRevision (docOf ev.aggregateID s) docRevisionField < ownRev f → ownRev f < ownRev ev →
      Overtakes view.schema ev f

instance (view : EntityView) (evs : List OutboxRow) (s : ViewState) (ev : OutboxRow)
    (a : Attempt) : Decidable (Safe view evs s ev a) :=
  decidable_of_iff ((ofRole view ev = true → ev.eventType = .inserted →
        s.stampedBaseRevision ≤ ev.payload.ids.baseRevision) ∧
      (a.project ≠ .failed → ∀ f ∈ evs,
        storedRevision (docOf ev.aggregateID s) docRevisionField < ownRev f →
          ownRev f < ownRev ev → Overtakes view.schema ev f))
    ⟨fun h => ⟨h.1, h.2⟩, fun h => ⟨h.1, h.2⟩⟩

/-- The attempts of a step are safe, and a sweep resolves only a row that still holds the event it
has replayed. -/
def Orderly (evs : List OutboxRow) (s : ReplayState ι) :
    ReplayAction ι → Prop
  | .process _ a => ∀ ev ∈ s.undelivered.head?, Safe view evs s.view ev a
  | .replay i a => ∀ ev ∈ (s.ledger.sweeps i).pending.head?.bind (·.payload),
      Safe view evs s.view ev a
  | .resolve i => Ledger.ResolvesListed some (fun _ => group) s.ledger (.resolve i)
  | .list _ | .resolveFailed _ => True

instance (view : EntityView) (group : String) (evs : List OutboxRow) (s : ReplayState ι)
    (a : ReplayAction ι) : Decidable (Orderly view group evs s a) := by
  unfold Orderly
  cases a <;> infer_instance

/-! ### What an attempt leaves of the document -/

section

variable {view : EntityView} {id : String} {ev : OutboxRow} {s s' : ViewState}

/-- The document is one that events of its aggregate have made. -/
structure Kept (schema : TableSchema) (s : ViewState) : Prop where
  tombstone : s.tombstone = none
  projectable : ∀ d ∈ s.doc, Projectable schema d
  revision : ∀ d ∈ s.doc, 0 ≤ storedRevision d docRevisionField

/-- What the obligations after the projection do: at most the part of the base. -/
structure Touches (schema : TableSchema) (id : String) (ev : OutboxRow) (s s' : ViewState) :
    Prop where
  kept : Kept schema s → Kept schema s'
  stamped : s.stampedBaseRevision ≤ s'.stampedBaseRevision ∧
    s'.stampedBaseRevision ≤ max s.stampedBaseRevision ev.payload.ids.baseRevision
  own : ownOf schema (docOf id s') = ownOf schema (docOf id s)
  base : baseOf schema (docOf id s') = baseOf schema (docOf id s) ∨
    baseOf schema (docOf id s') = baseAfter schema ev (baseOf schema (docOf id s))

theorem Touches.refl (schema : TableSchema) (id : String) (ev : OutboxRow) (s : ViewState) :
    Touches schema id ev s s := ⟨fun h => h, ⟨le_rfl, le_max_left ..⟩, rfl, .inl rfl⟩

theorem Touches.trans {schema : TableSchema} {s1 : ViewState} (h : Touches schema id ev s s1)
    (h' : Touches schema id ev s1 s') : Touches schema id ev s s' := by
  refine ⟨h'.kept ∘ h.kept, ⟨h.stamped.1.trans h'.stamped.1, ?_⟩, h'.own.trans h.own, ?_⟩
  · have := h.stamped.2
    have := h'.stamped.2
    omega
  · rcases h.base with hb | hb <;> rcases h'.base with hb' | hb' <;> rw [hb] at hb'
    · exact .inl hb'
    · exact .inr hb'
    · exact .inr hb'
    · exact .inr (hb'.trans (baseAfter_baseAfter _))

theorem touches_stamp (schema : TableSchema) :
    Touches schema id ev s { s with
      stampedBaseRevision := max s.stampedBaseRevision ev.payload.ids.baseRevision } :=
  ⟨fun h => ⟨h.tombstone, h.projectable, h.revision⟩, ⟨le_max_left .., le_rfl⟩, rfl, .inl rfl⟩

theorem touches_fanOut (hev : WellFormed view.schema ev.payload)
    (hblocks : OwnedBlocks view.schema ev.payload) (hs : Kept view.schema s) :
    ∃ s', fanOutSharedBasePayload view s ev = .ok s' ∧ Touches view.schema id ev s s' := by
  obtain ⟨doc', hok, hdoc⟩ := fanOutSharedBasePayload_ok hev hblocks hs.projectable
  refine ⟨_, hok, ?_⟩
  rcases hdoc with rfl | ⟨d, d', hd, rfl, hfan⟩
  · exact .refl ..
  · have hown : ownOf view.schema d' = ownOf view.schema d := hfan.ownOf hblocks
    have hdoc : docOf id s = d := by rw [docOf, hd, Option.getD_some]
    refine ⟨fun h => ⟨h.tombstone, ?_, ?_⟩, ⟨le_rfl, le_max_left ..⟩, ?_, .inr ?_⟩
    · rintro _ ⟨⟩
      exact hfan.projectable (h.projectable d hd)
    · rintro _ ⟨⟩
      have := h.revision d hd
      have hrev : storedRevision d' docRevisionField = storedRevision d docRevisionField :=
        congrArg revision hown
      omega
    · rw [hdoc]
      exact hown
    · rw [hdoc]
      exact hfan.baseOf hev

theorem shouldDeleteFromView_eq_false (deleteOnArchive : Bool)
    (hverb : ev.eventType.IsBody) : shouldDeleteFromView ev.eventType deleteOnArchive = false := by
  rcases hverb with h | h <;> rw [h] <;> rfl

theorem projectOwnView_applies (hid : ev.aggregateID = id) (hev : WellFormed view.schema ev.payload)
    (hblocks : OwnedBlocks view.schema ev.payload)
    (hkeep : shouldDeleteFromView ev.eventType view.deleteOnArchive = false)
    (hs : Kept view.schema s) :
    ∃ s', projectOwnView view s ev = .ok s' ∧ Kept view.schema s' ∧
      s'.stampedBaseRevision = s.stampedBaseRevision ∧
      ownOf view.schema (docOf id s') =
        (ownOf view.schema (docOf id s)).apply ownRev (actOwn view.schema) ev ∧
      baseOf view.schema (docOf id s') =
        baseAfter view.schema ev (baseOf view.schema (docOf id s)) := by
  obtain ⟨d', hok, hproj⟩ := projectOwnView_ok hev hkeep hs.projectable
  subst hid
  have hcheck : checkTombstone { s with doc := some d' } ev.payload.ids.revision =
      { s with doc := some d' } := by
    simp [checkTombstone, hs.tombstone]
  rw [hcheck] at hok
  refine ⟨_, hok, ⟨hs.tombstone, ?_, ?_⟩, rfl, hproj.ownOf hblocks, hproj.baseOf hev⟩
  · rintro _ ⟨⟩
    exact hproj.projectable (projectable_getD hs.projectable)
  · rintro _ ⟨⟩
    rw [hproj.storedRevision]
    omega

theorem discharge_ok (what : String) (reach : Reach) :
    discharge what reach (.ok s') s =
      (if reach = .failed then s else s', if reach = .done then [] else [what]) := by
  cases reach <;> rfl

theorem inserted_of_repair (hverb : ev.eventType.IsBody)
    (h : ev.eventType = .inserted ∨ ev.eventType = .unarchived) : ev.eventType = .inserted := by
  rcases h with h | h
  · exact h
  · rcases hverb with h' | h' <;> rw [h'] at h <;> cases h

/-- No repair is due. -/
def RepairFree (view : EntityView) (stamped : ℕ) (ev : OutboxRow) : Prop :=
  ofRole view ev = true → ev.eventType = .inserted → stamped ≤ ev.payload.ids.baseRevision

theorem touches_attemptShared (a : Attempt) (hev : WellFormed view.schema ev.payload)
    (hblocks : OwnedBlocks view.schema ev.payload)
    (hverb : ev.eventType.IsBody) (hs : Kept view.schema s)
    (hfree : ev.eventType = .inserted → s.stampedBaseRevision ≤ ev.payload.ids.baseRevision) :
    Touches view.schema id ev s (attemptShared view s ev a).1 := by
  rw [attemptShared, discharge_ok]
  dsimp only
  generalize hs1 : (if a.stamp = .failed then s else { s with
    stampedBaseRevision := max s.stampedBaseRevision ev.payload.ids.baseRevision }) = s1
  have htouch1 : Touches view.schema id ev s s1 := by
    rw [← hs1]
    split_ifs
    · exact .refl ..
    · exact touches_stamp ..
  generalize hs2 : (if (if a.stamp = .done then []
      else ["stamp base revision (shared-base fan-out blocked)"]) = [] then
        discharge "shared-base payload fan-out" a.fanOut (fanOutSharedBasePayload view s1 ev) s1
      else (s1, [])) = r2
  have htouch2 : Touches view.schema id ev s r2.1 := by
    refine htouch1.trans ?_
    obtain ⟨s2, hfan, htouch⟩ := touches_fanOut hev hblocks (htouch1.kept hs)
    rw [← hs2, hfan, discharge_ok]
    split_ifs
    all_goals first | exact htouch | exact .refl ..
  split_ifs with hrepair
  · have hins := inserted_of_repair hverb hrepair.2
    have hle : r2.1.stampedBaseRevision ≤ ev.payload.ids.baseRevision := by
      have := htouch2.stamped.2
      have := hfree hins
      omega
    rw [pullSideRepair, if_pos hle, discharge_ok]
    split_ifs
    all_goals exact htouch2
  · exact htouch2

/-- What an attempt leaves of the document. -/
structure Attempted (schema : TableSchema) (id : String) (ev : OutboxRow) (a : Attempt)
    (s s' : ViewState) (errs : List String) : Prop where
  kept : Kept schema s'
  stamped : s.stampedBaseRevision ≤ s'.stampedBaseRevision ∧
    s'.stampedBaseRevision ≤ max s.stampedBaseRevision ev.payload.ids.baseRevision
  scopes : ownOf schema (docOf id s') = ownOf schema (docOf id s) ∧
      (baseOf schema (docOf id s') = baseOf schema (docOf id s) ∨
        baseOf schema (docOf id s') = baseAfter schema ev (baseOf schema (docOf id s))) ∧
      errs ≠ [] ∨
    a.project ≠ .failed ∧
      ownOf schema (docOf id s') = (ownOf schema (docOf id s)).apply ownRev (actOwn schema) ev ∧
      baseOf schema (docOf id s') = baseAfter schema ev (baseOf schema (docOf id s))

/-- **An attempt** applies its event to both scopes where it reaches the document, as it does
without errors, and touches the scope of the base in any case. -/
theorem attempt_applies (a : Attempt) (hid : ev.aggregateID = id)
    (hev : WellFormed view.schema ev.payload) (hblocks : OwnedBlocks view.schema ev.payload)
    (hverb : ev.eventType.IsBody) (hs : Kept view.schema s)
    (hfree : RepairFree view s.stampedBaseRevision ev) :
    Attempted view.schema id ev a s (attempt view s ev a).1 (attempt view s ev a).2 := by
  obtain ⟨s1, hproj, hkept, hstamp, hown, hbase⟩ :=
    projectOwnView_applies hid hev hblocks (shouldDeleteFromView_eq_false _ hverb) hs
  have hrest : ∀ s0, Kept view.schema s0 → s0.stampedBaseRevision = s.stampedBaseRevision →
      Touches view.schema id ev s0
        (if ofRole view ev then attemptShared view s0 ev a else (s0, a.others)).1 := by
    intro s0 hk hst
    split_ifs with hrole
    · exact touches_attemptShared a hev hblocks hverb hk fun hins => hst ▸ hfree hrole hins
    · exact .refl ..
  rw [attempt, hproj, discharge_ok]
  by_cases hfail : a.project = .failed
  · have hdone : a.project ≠ .done := by rw [hfail]; nofun
    rw [if_pos hfail, if_neg hdone]
    have htouch := hrest s hs rfl
    exact ⟨htouch.kept hs, htouch.stamped, .inl ⟨htouch.own, htouch.base, by simp⟩⟩
  · rw [if_neg hfail]
    have htouch := hrest s1 hkept hstamp
    refine ⟨htouch.kept hkept, hstamp ▸ htouch.stamped, .inr ⟨hfail, htouch.own.trans hown, ?_⟩⟩
    rcases htouch.base with hb | hb
    · exact hb.trans hbase
    · exact hb.trans (by rw [hbase, baseAfter_baseAfter])

end

/-! ### Documents in step with the events -/

section

variable {view : EntityView} {id : String} {evs : List OutboxRow} {ev : OutboxRow}
  {s s' : ViewState} {a : Attempt}

/-- The scopes of the document that a missing one starts from. -/
def ownStart (schema : TableSchema) (id : String) : Replica (OwnScope schema) :=
  ownOf schema (docOf id {})

@[inherit_doc ownStart]
def baseStart (schema : TableSchema) (id : String) : Replica (BaseScope schema) :=
  baseOf schema (docOf id {})

/-- The events that carry the columns of the base. -/
def carrying (schema : TableSchema) (evs : List OutboxRow) : List OutboxRow :=
  evs.filter fun ev => Carries schema ev

/-- Each scope holds what the events up to some point leave in order. -/
structure InStep (schema : TableSchema) (id : String) (evs : List OutboxRow) (s : ViewState) :
    Prop where
  kept : Kept schema s
  own : UpTo ownRev (actOwn schema) (ownStart schema id) evs (ownOf schema (docOf id s))
  base : UpTo baseRev (actBase schema) (baseStart schema id) (carrying schema evs)
    (baseOf schema (docOf id s))

/-- Neither scope is behind the event. -/
def Seen (schema : TableSchema) (id : String) (s : ViewState) (ev : OutboxRow) : Prop :=
  ownRev ev ≤ (ownOf schema (docOf id s)).revision ∧
    (Carries schema ev → baseRev ev ≤ (baseOf schema (docOf id s)).revision)

theorem inStep_start (schema : TableSchema) (stamped : ℕ) :
    InStep schema id evs { stampedBaseRevision := stamped } :=
  ⟨⟨rfl, nofun, nofun⟩, .start _, .start _⟩

variable {schema : TableSchema}

theorem mem_carrying : ev ∈ carrying schema evs ↔ ev ∈ evs ∧ Carries schema ev := by
  simp [carrying]

theorem growing_own (hseq : Sequence view.schema id evs) :
    Growing ownRev (ownStart view.schema id) evs := by
  refine ⟨hseq.revisions, fun ev _ => ?_⟩
  have hstart : (ownStart view.schema id).revision = -1 := rfl
  rw [hstart, ownRev]
  omega

theorem growing_base (hseq : Sequence view.schema id evs) :
    Growing baseRev (baseStart view.schema id) (carrying view.schema evs) := by
  refine ⟨?_, fun ev _ => ?_⟩
  · rcases eq_or_ne (carrying view.schema evs) [] with hnil | hne
    · exact hnil ▸ .nil
    · obtain ⟨ev, hev⟩ := exists_mem_of_ne_nil _ hne
      exact (hseq.baseRevisions (mem_carrying.1 hev).2.isRole).filter _
  · have hstart : (baseStart view.schema id).revision = -1 := rfl
    rw [hstart, baseRev]
    omega

theorem Sequence.of_carries (hseq : Sequence view.schema id evs) (hmem : ev ∈ evs)
    (hcar : Carries view.schema ev) : ∀ f ∈ evs, Carries view.schema f ∧
      ∀ k ∈ view.schema.sharedBaseBusinessColumns, k ∈ (baseSet view.schema f.payload).keys :=
  hseq.base.resolve_left fun hnone => hnone ev hmem hcar

theorem InStep.upTo_baseAfter (h : InStep view.schema id evs s)
    (hseq : Sequence view.schema id evs) (hmem : ev ∈ evs) :
    UpTo baseRev (actBase view.schema) (baseStart view.schema id) (carrying view.schema evs)
      (baseAfter view.schema ev (baseOf view.schema (docOf id s))) := by
  rw [baseAfter]
  split_ifs with hcar
  · have hcov : ∀ f, Covers (actBase view.schema) ev f := fun f =>
      covers_base (hseq.of_carries hmem hcar ev hmem).2
    exact h.base.apply (growing_base hseq) (mem_carrying.2 ⟨hmem, hcar⟩) (hcov ev)
      fun f _ _ _ => hcov f
  · exact h.base

theorem Attempted.seen {errs : List String} (h : Attempted view.schema id ev a s s' errs)
    {f : OutboxRow} (hf : Seen view.schema id s f) : Seen view.schema id s' f := by
  obtain ⟨hown, hbase⟩ := hf
  have hafter := (le_revision_baseAfter ev (baseOf view.schema (docOf id s))).1
  rcases h.scopes with ⟨ho, hb, -⟩ | ⟨-, ho, hb⟩
  · refine ⟨ho ▸ hown, fun hcar => (hbase hcar).trans ?_⟩
    rcases hb with hb | hb <;> rw [hb]
    exact hafter
  · refine ⟨hown.trans ?_, fun hcar => (hbase hcar).trans (hb ▸ hafter)⟩
    rw [ho]
    exact (le_revision_apply ..).1

theorem Attempted.seen_self (h : Attempted view.schema id ev a s s' []) :
    Seen view.schema id s' ev := by
  obtain ⟨-, -, hne⟩ | ⟨-, ho, hb⟩ := h.scopes
  · exact absurd rfl hne
  · refine ⟨?_, fun hcar => ?_⟩
    · rw [ho]
      exact (le_revision_apply ..).2
    · rw [hb]
      exact (le_revision_baseAfter ev _).2 hcar

/-- **A safe attempt** keeps the document in step. -/
theorem InStep.attempt (h : InStep view.schema id evs s) (hseq : Sequence view.schema id evs)
    (hmem : ev ∈ evs) (hverb : ev.eventType.IsBody) (hsafe : Safe view evs s ev a) :
    InStep view.schema id evs (Query.attempt view s ev a).1 ∧
      Attempted view.schema id ev a s (Query.attempt view s ev a).1
        (Query.attempt view s ev a).2 := by
  have hid := hseq.id ev hmem
  have hatt := attempt_applies a hid (hseq.wellFormed ev hmem) (hseq.blocks ev hmem) hverb h.kept
    hsafe.repair
  refine ⟨⟨hatt.kept, ?_, ?_⟩, hatt⟩
  · rcases hatt.scopes with ⟨ho, -⟩ | ⟨hreach, ho, -⟩
    · exact ho ▸ h.own
    · rw [ho]
      refine h.own.apply (growing_own hseq) hmem (covers_self (hseq.editsOwn ev hmem))
        fun f hf hlt hlt' => ?_
      exact (hsafe.overtakes hreach f hf (hid ▸ hlt) hlt').covers (hseq.editsOwn ev hmem)
        (hseq.editsOwn f hf)
  · rcases hatt.scopes with ⟨-, hb | hb, -⟩ | ⟨-, -, hb⟩
    · exact hb ▸ h.base
    · exact hb ▸ h.upTo_baseAfter hseq hmem
    · exact hb ▸ h.upTo_baseAfter hseq hmem

theorem le_of_getLast? {rev : OutboxRow → ℤ} (h : evs.Pairwise fun e f => rev e < rev f)
    {last : OutboxRow} (hlast : last ∈ evs.getLast?) (hmem : ev ∈ evs) : rev ev ≤ rev last := by
  rcases eq_nil_or_concat evs with rfl | ⟨pre, e, rfl⟩
  · cases hmem
  · rw [concat_eq_append] at *
    obtain rfl : e = last := by simpa using hlast
    rcases mem_append.1 hmem with hmem | hmem
    · exact ((pairwise_append.1 h).2.2 ev hmem e (by simp)).le
    · rw [mem_singleton.1 hmem]

/-- A document in step that has seen the last event holds what all of them leave in order. -/
theorem InStep.eq_foldl (h : InStep view.schema id evs s) (hseq : Sequence view.schema id evs)
    (hlast : ∀ ev ∈ evs.getLast?, Seen view.schema id s ev) :
    ownOf view.schema (docOf id s) =
        evs.foldl (force ownRev (actOwn view.schema)) (ownStart view.schema id) ∧
      baseOf view.schema (docOf id s) = (carrying view.schema evs).foldl
        (force baseRev (actBase view.schema)) (baseStart view.schema id) := by
  have hsome : ∀ ev ∈ evs, ∃ last, last ∈ evs.getLast? := fun ev hmem =>
    ⟨_, getLast?_eq_some_getLast (ne_nil_of_mem hmem)⟩
  constructor
  · refine h.own.value_eq (growing_own hseq) fun ev hmem => ?_
    obtain ⟨last, hl⟩ := hsome ev hmem
    exact (le_of_getLast? hseq.revisions hl hmem).trans (hlast last hl).1
  · refine h.base.value_eq (growing_base hseq) fun ev hmem => ?_
    obtain ⟨hmem, hcar⟩ := mem_carrying.1 hmem
    obtain ⟨last, hl⟩ := hsome ev hmem
    exact (le_of_getLast? (hseq.baseRevisions hcar.isRole) hl hmem).trans
      ((hlast last hl).2 (hseq.of_carries hmem hcar last (mem_of_getLast? hl)).1)

theorem Kept.isSome_iff (h : Kept schema s) :
    s.doc.isSome ↔ 0 ≤ (ownOf schema (docOf id s)).revision := by
  cases hd : s.doc with
  | none =>
    have hrev : (ownOf schema (docOf id s)).revision = -1 := by
      rw [docOf, hd]
      rfl
    simp [hrev]
  | some d =>
    have hrev : (ownOf schema (docOf id s)).revision = storedRevision d docRevisionField := by
      rw [docOf, hd]
      rfl
    simpa [hrev] using h.revision d hd

theorem get_docOf {k : String} (hk : k ∈ schema.documentKeys) :
    (docOf id s).get k = s.doc.bind (get · k) := by
  rw [docOf]
  cases s.doc with
  | some d => rfl
  | none => exact get_new hk

/-- **Documents in step** that have seen the last event agree. -/
theorem InStep.agree (h : InStep view.schema id evs s) (h' : InStep view.schema id evs s')
    (hseq : Sequence view.schema id evs) (hlast : ∀ ev ∈ evs.getLast?, Seen view.schema id s ev)
    (hlast' : ∀ ev ∈ evs.getLast?, Seen view.schema id s' ev) : Agree view.schema s.doc s'.doc := by
  obtain ⟨hown, hbase⟩ := h.eq_foldl hseq hlast
  obtain ⟨hown', hbase'⟩ := h'.eq_foldl hseq hlast'
  have hown := hown.trans hown'.symm
  have hbase := hbase.trans hbase'.symm
  have hsome : s.doc.isSome = s'.doc.isSome := by
    rw [Bool.eq_iff_iff, h.kept.isSome_iff, h'.kept.isSome_iff, hown]
  refine ⟨hsome, fun k hk => ?_, fun c hc => ?_⟩
  · have hkey : k ∈ view.schema.documentKeys := mem_append_left _ hk
    rw [← get_docOf hkey, ← get_docOf hkey]
    rcases mem_append.1 hk with hk | hk
    · exact congrFun (congrArg (fun r => r.value.columns) hown) ⟨k, hk⟩
    · exact congrFun (congrArg (fun r => r.value.columns) hbase) ⟨k, hk⟩
  · have hseg : segment (docOf id s) c.segment = segment (docOf id s') c.segment :=
      congrFun (congrArg (fun r => r.value.elements) hown) ⟨c, hc⟩
    cases hd : s.doc with
    | none => simpa [hd] using hsome
    | some d =>
      obtain ⟨d', hd'⟩ := Option.isSome_iff_exists.1 (hsome ▸ hd ▸ rfl : s'.doc.isSome)
      rw [docOf, docOf, hd, hd'] at hseg
      rw [hd', Option.map_some, Option.map_some]
      exact congrArg some hseg

/-! ### Delivery in order -/

theorem InStep.processEvent (h : InStep view.schema id evs s) (hseq : Sequence view.schema id evs)
    (rows : Database) (hmem : ev ∈ evs) (hverb : ev.eventType.IsBody)
    (hnext : ∀ f ∈ evs, ownRev f < ownRev ev → ownRev f ≤ (ownOf view.schema (docOf id s)).revision)
    (hfree : RepairFree view s.stampedBaseRevision ev) :
    ∃ s', Query.processEvent view rows s ev = .ok s' ∧ InStep view.schema id evs s' ∧
      Attempted view.schema id ev { rows } s s' [] := by
  have hid := hseq.id ev hmem
  have hsafe : Safe view evs s ev { rows } := by
    refine ⟨hfree, fun _ f hf hlt hlt' => ?_⟩
    have hle : ownRev f ≤ storedRevision (docOf id s) docRevisionField := hnext f hf hlt'
    rw [hid] at hlt
    omega
  have hok : ∃ s', Query.processEvent view rows s ev = .ok s' := by
    obtain ⟨s1, hproj, hkept, hst, -⟩ := projectOwnView_applies hid (hseq.wellFormed ev hmem)
      (hseq.blocks ev hmem) (shouldDeleteFromView_eq_false _ hverb) h.kept
    obtain ⟨s', hs', -⟩ := processEvent_ok rows (hseq.wellFormed ev hmem) (hseq.blocks ev hmem)
      hproj hkept.projectable fun hrole hrepair =>
        hst ▸ hfree hrole (inserted_of_repair hverb hrepair)
    exact ⟨s', hs'⟩
  obtain ⟨s', hs'⟩ := hok
  have hatt := h.attempt hseq hmem hverb hsafe
  rw [attempt_of_processEvent hs'] at hatt
  exact ⟨s', hs', hatt⟩

/-- **Delivering every event once, in order,** goes through and ends with the last one. -/
theorem deliver_ok (hseq : Sequence view.schema id evs)
    (hverb : ∀ ev ∈ evs, ev.eventType.IsBody) (rows : Database)
    {pre post : List OutboxRow} (hsplit : evs = pre ++ post) (h : InStep view.schema id evs s)
    (hlast : ∀ ev ∈ pre.getLast?, Seen view.schema id s ev)
    (hfree : ∀ ev ∈ post, RepairFree view s.stampedBaseRevision ev) :
    ∃ s', post.foldlM (Query.processEvent view rows) s = .ok s' ∧ InStep view.schema id evs s' ∧
      ∀ ev ∈ evs.getLast?, Seen view.schema id s' ev := by
  induction post generalizing pre s with
  | nil => exact ⟨s, rfl, h, by simpa [hsplit] using hlast⟩
  | cons ev post ih =>
    have hmem : ev ∈ evs := by simp [hsplit]
    obtain ⟨hfree1, hfree⟩ := forall_mem_cons.1 hfree
    have hnext : ∀ f ∈ evs, ownRev f < ownRev ev →
        ownRev f ≤ (ownOf view.schema (docOf id s)).revision := by
      intro f hf hlt
      obtain ⟨hpre, hpost, -⟩ := pairwise_append.1 (hsplit ▸ hseq.revisions)
      have hfpre : f ∈ pre := by
        rcases mem_append.1 (hsplit ▸ hf) with hf | hf
        · exact hf
        · rcases mem_cons.1 hf with rfl | hf
          · exact absurd hlt (lt_irrefl _)
          · exact absurd ((pairwise_cons.1 hpost).1 f hf) hlt.asymm
      have hl := getLast?_eq_some_getLast (ne_nil_of_mem hfpre)
      exact (le_of_getLast? hpre hl hfpre).trans (hlast _ hl).1
    obtain ⟨s1, hs1, hin, hatt⟩ := h.processEvent hseq rows hmem (hverb ev hmem) hnext hfree1
    have hrest := ih (hsplit.trans (append_cons pre ev post)) hin
      (by simpa using hatt.seen_self) fun f hf hrole hins => ?_
    · obtain ⟨s', hs', hin', hlast'⟩ := hrest
      refine ⟨s', ?_, hin', hlast'⟩
      rw [foldlM_cons, hs1]
      exact hs'
    · have hsb := isSome_of_ofRole hrole
      have hlt : baseRev ev < baseRev f := by
        have hpair := pairwise_append.1 (hsplit ▸ hseq.baseRevisions hsb)
        exact (pairwise_cons.1 hpair.2.1).1 f hf
      have hle := hfree f hf hrole hins
      have := hatt.stamped.2
      simp only [baseRev] at hlt
      omega

end

/-! ### The invariant of a run -/

section

variable {view : EntityView} {id group topic : String} {evs : List OutboxRow} {recorded : ℕ}
  {s s' : ReplayState ι}

/-- A ledger row of one of the events. -/
def ParkedOf (evs : List OutboxRow) (r : ProjectionFailureRecord OutboxRow) : Prop :=
  r.kind = .event ∧ ∃ ev ∈ evs, r.payload = some ev

/-- The document is in step with the events; the ledger holds rows of them, and the event of a row
being resolved was seen; so was the last delivered one, unless it is pending in the ledger. -/
structure ReplayInv (view : EntityView) (id : String) (evs : List OutboxRow) (recorded : ℕ)
    (s : ReplayState ι) : Prop where
  inStep : InStep view.schema id evs s.view
  stamped : recorded ≤ s.view.stampedBaseRevision
  rows : ∀ r ∈ s.ledger.rows, ParkedOf evs r
  pending : ∀ i, ∀ r ∈ (s.ledger.sweeps i).pending, ParkedOf evs r
  resolving : ∀ i, ∀ r ∈ (s.ledger.sweeps i).resolving, ∃ ev ∈ evs, r.payload = some ev ∧
    Seen view.schema id s.view ev
  delivered : ∃ pre, evs = pre ++ s.undelivered ∧ (∀ ev ∈ pre, RepairFree view recorded ev) ∧
    ∀ ev ∈ pre.getLast?, Seen view.schema id s.view ev ∨
      ∃ r ∈ s.ledger.rows, r.resolved = false ∧ r.payload = some ev

/-- A step of the sweep of one pod: its rows are of the events, the one being resolved was seen, and
a pending row of the ledger stays unless its event was seen. -/
theorem ReplayInv.sweep (h : ReplayInv view id evs recorded s) {l : Ledger.State ι OutboxRow}
    {i : ι} {sweep : Ledger.Sweep OutboxRow} (hsweeps : l.sweeps = update s.ledger.sweeps i sweep)
    (hpending : ∀ r ∈ sweep.pending, ParkedOf evs r)
    (hresolving : ∀ r ∈ sweep.resolving, ∃ ev ∈ evs, r.payload = some ev ∧
      Seen view.schema id s.view ev) (hrows : ∀ r ∈ l.rows, ParkedOf evs r)
    (hkeep : ∀ r ∈ s.ledger.rows, r.resolved = false → r ∈ l.rows ∨
      ∃ ev, r.payload = some ev ∧ Seen view.schema id s.view ev) :
    ReplayInv view id evs recorded { s with ledger := l } := by
  refine ⟨h.inStep, h.stamped, hrows, fun j => ?_, fun j => ?_, ?_⟩
  · by_cases hj : j = i
    · simpa only [hsweeps, hj, update_self] using hpending
    · simpa only [hsweeps, update_of_ne hj] using h.pending j
  · by_cases hj : j = i
    · simpa only [hsweeps, hj, update_self] using hresolving
    · simpa only [hsweeps, update_of_ne hj] using h.resolving j
  · obtain ⟨pre, hsplit, hfree, hlast⟩ := h.delivered
    refine ⟨pre, hsplit, hfree, fun ev hev => ?_⟩
    rcases hlast ev hev with hseen | ⟨r, hr, hopen, hpay⟩
    · exact .inl hseen
    · rcases hkeep r hr hopen with hr | ⟨f, hf, hseen⟩
      · exact .inr ⟨r, hr, hopen, hpay⟩
      · obtain rfl := Option.some.inj (hpay.symm.trans hf)
        exact .inl hseen

omit [DecidableEq ι] in
theorem ReplayInv.attempt (hseq : Sequence view.schema id evs)
    (hverb : ∀ ev ∈ evs, ev.eventType.IsBody) {ev : OutboxRow}
    {a : Attempt} (h : ReplayInv view id evs recorded s) (hmem : ev ∈ evs)
    (hsafe : Safe view evs s.view ev a) :
    ReplayInv view id evs recorded { s with view := (Query.attempt view s.view ev a).1 } ∧
      ((Query.attempt view s.view ev a).2 = [] →
        Seen view.schema id (Query.attempt view s.view ev a).1 ev) := by
  obtain ⟨hin, hatt⟩ := h.inStep.attempt hseq hmem (hverb ev hmem) hsafe
  refine ⟨⟨hin, h.stamped.trans hatt.stamped.1, h.rows, h.pending, fun i r hr => ?_, ?_⟩,
    fun herr => (herr ▸ hatt).seen_self⟩
  · obtain ⟨f, hf, hpay, hseen⟩ := h.resolving i r hr
    exact ⟨f, hf, hpay, hatt.seen hseen⟩
  · obtain ⟨pre, hsplit, hfree, hlast⟩ := h.delivered
    exact ⟨pre, hsplit, hfree, fun f hf => (hlast f hf).imp_left hatt.seen⟩

/-! ### The steps of a sweep -/

section

variable {l l' : Ledger.State ι OutboxRow} {i : ι}

theorem step_list (h : step some (fun _ => group) l (.list i) = some l') :
    l'.rows = l.rows ∧ ∃ pending, (∀ r ∈ pending, r ∈ l.rows) ∧
      l'.sweeps = update l.sweeps i { pending } := by
  simp only [step, listPendingProjectionFailures] at h
  split_ifs at h
  · cases h
    exact ⟨rfl, [], by simp, rfl⟩
  · cases h
    exact ⟨rfl, _, fun r hr => (mem_filter.1 hr).1, rfl⟩

theorem step_replay {errs : List String} {rec : ProjectionFailureRecord OutboxRow} {ev : OutboxRow}
    (hhead : (l.sweeps i).pending.head? = some rec) (hkind : rec.kind = .event)
    (hpay : rec.payload = some ev) (h : step some (fun _ => group) l (.replay i errs) = some l') :
    l'.rows = l.rows ∧ l'.sweeps = update l.sweeps i
      ⟨(l.sweeps i).pending.tail, if errs = [] then some rec else none⟩ := by
  simp only [step] at h
  split at h
  · rename_i rec' pending hsweep
    rw [hsweep] at hhead ⊢
    obtain rfl : rec' = rec := by simpa using hhead
    simp only [hkind, reduceCtorEq, if_false, process, ProjectionFailureRecord.event, hpay,
      Option.bind_some] at h
    split_ifs at h with herr
    all_goals
      cases h
      simp [Ledger.State.setSweep, herr]
  · cases h

theorem step_resolve (h : step some (fun _ => group) l (.resolve i) = some l') :
    l'.sweeps = update l.sweeps i { l.sweeps i with resolving := none } ∧
      (∃ rec, (l.sweeps i).resolving = some rec) ∧
      (∀ r' ∈ l'.rows, ∃ r ∈ l.rows, r'.kind = r.kind ∧ r'.payload = r.payload) ∧
      ∀ r ∈ l.rows, r.resolved = false → r ∈ l'.rows ∨
        r ∈ resolvedRows (fun _ : ι => group) l (.resolve i) := by
  simp only [step] at h
  split at h
  · rename_i rec hrec
    cases h
    refine ⟨rfl, ⟨rec, hrec⟩, ?_⟩
    simp only [Ledger.State.setSweep, resolvedRows, hrec, resolveProjectionFailure]
    split_ifs
    · exact ⟨fun r hr => ⟨r, hr, rfl, rfl⟩, fun r hr _ => .inl hr⟩
    · simp only [Except.toOption, Option.getD_some, mem_map, mem_filter]
      refine ⟨?_, fun r hr hopen => ?_⟩
      · rintro _ ⟨r, hr, rfl⟩
        refine ⟨r, hr, ?_⟩
        split_ifs <;> exact ⟨rfl, rfl⟩
      · by_cases hkey : r.key = ⟨group, .event, rec.topic, rec.aggregateType, rec.aggregateID⟩
        · exact .inr ⟨hr, by simp [hopen, hkey]⟩
        · exact .inl ⟨r, hr, by simp [hkey]⟩
  · cases h

end

/-- **Step.** -/
theorem ReplayInv.step (hseq : Sequence view.schema id evs)
    (hverb : ∀ ev ∈ evs, ev.eventType.IsBody)
    {a : ReplayAction ι} (h : ReplayInv view id evs recorded s) (hok : Orderly view group evs s a)
    (hstep : (replayMachine view group topic).step s a = some s') :
    ReplayInv view id evs recorded s' := by
  cases a with
  | process i a =>
    simp only [replayMachine] at hstep
    split at hstep
    · cases hstep
    · rename_i ev rest hund
      obtain ⟨pre, hsplit, hfree, -⟩ := h.delivered
      rw [hund] at hsplit
      have hmem : ev ∈ evs := by simp [hsplit]
      have hsafe : Safe view evs s.view ev a := hok ev (by simp [hund])
      obtain ⟨h', hseen⟩ := h.attempt hseq hverb hmem hsafe
      have hsplit' : evs = (pre ++ [ev]) ++ rest := hsplit.trans (append_cons pre ev rest)
      have hfree' : ∀ f ∈ pre ++ [ev], RepairFree view recorded f := by
        intro f hf
        rcases mem_concat.1 hf with hf | rfl
        · exact hfree f hf
        · exact fun hrole hins => h.stamped.trans (hsafe.repair hrole hins)
      have hlast : ∀ f ∈ (pre ++ [ev]).getLast?, f = ev := by simp
      split_ifs at hstep with herr hretry
      · -- processed: the event was seen
        cases hstep
        simp only [herr, process, messageOf, Option.bind_some, if_true]
        refine ⟨h'.inStep, h'.stamped, h'.rows, h'.pending, h'.resolving, pre ++ [ev], hsplit',
          hfree', fun f hf => .inl ?_⟩
        rw [hlast f hf]
        exact hseen herr
      · cases hstep
        exact ⟨h'.inStep, h'.stamped, h'.rows, h'.pending, h'.resolving, h'.delivered⟩
      · -- parked: it is pending
        split at hstep
        · rename_i rows hrows
          cases hstep
          rw [recordProjectionFailure] at hrows
          split_ifs at hrows
          cases hrows
          refine ⟨h'.inStep, h'.stamped, fun r hr => ?_, h'.pending, h'.resolving, pre ++ [ev],
            hsplit', hfree', fun f hf =>
              .inr ⟨_, mem_concat_self, rfl, ?_⟩⟩
          · rcases mem_concat.1 hr with hr | rfl
            · exact h.rows r (mem_filter.1 hr).1
            · exact ⟨rfl, ev, hmem, rfl⟩
          · rw [hlast f hf]
            rfl
        · cases hstep
  | list i =>
    obtain ⟨l, hl, rfl⟩ := Option.map_eq_some_iff.1 hstep
    obtain ⟨hrows, pending, hpending, hsweeps⟩ := step_list hl
    exact h.sweep hsweeps (fun r hr => h.rows r (hpending r hr)) nofun (hrows ▸ h.rows)
      fun r hr _ => .inl (hrows ▸ hr)
  | replay i a =>
    obtain ⟨ev, hev, hstep⟩ := Option.bind_eq_some_iff.1 hstep
    obtain ⟨l, hl, rfl⟩ := Option.map_eq_some_iff.1 hstep
    obtain ⟨rec, hhead, hpay⟩ := Option.bind_eq_some_iff.1 hev
    obtain ⟨hkind, f, hmem, hf⟩ := h.pending i rec (mem_of_head? hhead)
    obtain rfl : f = ev := Option.some.inj (hf.symm.trans hpay)
    obtain ⟨h', hseen⟩ := h.attempt hseq hverb hmem (hok f hev)
    obtain ⟨hrows, hsweeps⟩ := step_replay hhead hkind hpay hl
    refine h'.sweep hsweeps (fun r hr => h.pending i r (mem_of_mem_tail hr))
      (fun r hr => ?_) (hrows ▸ h.rows) fun r hr _ => .inl (hrows ▸ hr)
    split_ifs at hr with herr
    · cases hr
      exact ⟨f, hmem, hpay, hseen herr⟩
    · cases hr
  | resolve i =>
    obtain ⟨l, hl, rfl⟩ := Option.map_eq_some_iff.1 hstep
    obtain ⟨hsweeps, ⟨rec, hrec⟩, hrows, hopen⟩ := step_resolve hl
    refine h.sweep hsweeps (h.pending i) nofun (fun r' hr' => ?_) fun r hr hpend => ?_
    · obtain ⟨r, hr, hkind, hpay⟩ := hrows r' hr'
      rw [ParkedOf, hkind, hpay]
      exact h.rows r hr
    · -- the row still holds the event that was replayed
      refine (hopen r hr hpend).imp_right fun hres => ?_
      obtain ⟨ev, -, hpay, hseen⟩ := h.resolving i rec hrec
      exact ⟨ev, (hok rec hrec r hres).1.trans hpay, hseen⟩
  | resolveFailed i =>
    obtain rfl := Option.some.inj hstep
    exact h.sweep rfl (h.pending i) nofun h.rows fun r hr _ => .inl hr

omit [DecidableEq ι] in
theorem replayInv_start :
    ReplayInv view id evs recorded (replayStart recorded evs : ReplayState ι) :=
  ⟨inStep_start .., le_rfl, nofun, fun _ => nofun, fun _ => nofun, [], rfl, nofun, nofun⟩

end

/-! ### Convergence -/

/-- **Parked and replayed events converge**: when every event of a history was delivered and no row
of the ledger is pending, the document agrees with the one that the events leave when each is
delivered once and in order, along every run whose steps are orderly. -/
theorem replay_converges {α : Type} [PersistentItem α] {env : Env} {view : EntityView}
    {id group topic : String} (hid : id ≠ "") {db rows : Database} {writes : List (HistoryAction α)}
    {hist : HistoryState}
    (hwrites : (historyMachine env view.schema.toSchemaDecl id).run { db } writes = some hist)
    (hverb : ∀ ev ∈ hist.events, ev.eventType = .inserted ∨ ev.eventType = .updated)
    {recorded : ℕ} {as : List (ReplayAction ι)} {s : ReplayState ι}
    (hrun : (replayMachine view group topic).run (replayStart recorded hist.events) as = some s)
    (hok : (replayMachine view group topic).Along (Orderly view group hist.events)
      (replayStart recorded hist.events) as) (hfin : s.Finished) :
    ∃ s', hist.events.foldlM (processEvent view rows) { stampedBaseRevision := recorded } =
      .ok s' ∧ Agree view.schema s.view.doc s'.doc := by
  have hseq : Sequence view.schema id hist.events :=
    sequence_of_sound (historySound_of_run hwrites) hid
  have hinv : ReplayInv view id hist.events recorded s :=
    Machine.run_invariant (fun _ _ _ h hc hstep => h.step hseq hverb hc hstep)
      replayInv_start hok hrun
  obtain ⟨pre, hsplit, hfree, hlast⟩ := hinv.delivered
  rw [hfin.1, append_nil] at hsplit
  subst hsplit
  obtain ⟨s', hs', hin', hlast'⟩ := deliver_ok hseq hverb rows (nil_append _).symm
    (inStep_start view.schema recorded) nofun hfree
  refine ⟨s', hs', hinv.inStep.agree hin' hseq (fun ev hev => ?_) hlast'⟩
  -- nothing is pending, so the last event was seen
  refine (hlast ev hev).resolve_right ?_
  rintro ⟨r, hr, hopen, -⟩
  rw [hfin.2 r hr] at hopen
  cases hopen

/-- A customer is inserted with an address, and then updated. -/
def customerWrites : List (HistoryAction Address) :=
  [.write .insert (customer "" 0 [⟨{ street := "Elm" }, .added, .added⟩]) (.ms 1), .write .update
      (customer "c" 1 [⟨{ id := "a", street := "Elm" }, .constructor, .constructor⟩]) (.ms 2)]

/-- The store is out of reach. -/
def outage : ReplayAction Unit := .process () { project := .failed }

/-- The update is parked, replayed and resolved. -/
theorem replay_of_parked_update :
    ∃ hist ∈ (historyMachine customerEnv customers.toSchemaDecl "c").run { db := {} }
        customerWrites,
      ∃ s ∈ (replayMachine ⟨customers, false⟩ "sync" "outbox").run (replayStart 0 hist.events)
        (.process () {} :: replicate processRetries outage ++
          [.list (), .replay () {}, .resolve ()]),
      ∃ s', hist.events.foldlM (processEvent ⟨customers, false⟩ {}) {} = .ok s' ∧
        Agree customers s.view.doc s'.doc := by
  refine Machine.exists_run (fun hist =>
      (∀ ev ∈ hist.events, ev.eventType = .inserted ∨ ev.eventType = .updated) ∧
      ∃ s ∈ (replayMachine ⟨customers, false⟩ "sync" "outbox").run (replayStart 0 hist.events)
        (.process () {} :: replicate processRetries outage ++
          [.list (), .replay () {}, .resolve ()]),
      (replayMachine ⟨customers, false⟩ "sync" "outbox").Along
        (Orderly ⟨customers, false⟩ "sync" hist.events) (replayStart 0 hist.events)
        (.process () {} :: replicate processRetries outage ++
          [.list (), .replay () {}, .resolve ()]) ∧ s.Finished) (by decide +kernel)
    fun hist hwrites ⟨hverb, s, hs, hok, hfin⟩ => ?_
  exact ⟨s, hs, replay_converges (by decide) hwrites hverb hs hok hfin⟩

/-- The insert is parked, and replayed after the update: the document has neither the creation
instant nor the address. -/
theorem replay_of_parked_insert :
    ∃ hist ∈ (historyMachine customerEnv customers.toSchemaDecl "c").run { db := {} }
        customerWrites,
      (∀ ev ∈ hist.events, ev.eventType = .inserted ∨ ev.eventType = .updated) ∧
      ∃ s ∈ (replayMachine ⟨customers, false⟩ "sync" "outbox").run (replayStart 0 hist.events)
        (replicate processRetries outage ++
          [.process () {}, .list (), .replay () {}, .resolve ()]), s.Finished ∧
      ∃ s' ∈ (hist.events.foldlM (processEvent ⟨customers, false⟩ {}) {}).toOption,
        ¬Agree customers s.view.doc s'.doc := by
  decide +kernel

end Omnicore.Query
