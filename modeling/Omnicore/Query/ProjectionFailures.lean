import Mathlib.Data.List.Basic
import Omnicore.Lib.Machine

/-!
# The projection failure ledger

An event that exhausts its retries is parked: `RecordProjectionFailure` upserts a row under the
natural key (consumer group, kind, topic, aggregate type, aggregate id) and the consumer advances.
A sweep lists the pending rows of its group, processes each stored payload again and resolves the
row by its natural key.  The listing, the processing and the resolution are three separate steps,
so consumers and other sweeps can act between them.

## Main results

* `Ledger.resolves_applied` : a resolved event row held a payload that some process call applied
  with every obligation succeeding, along every run in which a sweep resolves only rows that still
  hold the payload it listed, that payload being decodable.

Payloads are of an arbitrary type `π`, an empty one being `none`; `decode` stands for the parse of
`decodeRawPayload`.
-/

namespace Omnicore.Query

open Option

/-- How often an event is attempted before it is parked. -/
def processRetries : ℕ := 5

/-- What a ledger row defers. -/
inductive ProjectionFailureKind where
  | event
  | ripple
  deriving DecidableEq, Repr

/-- A message of the outbox topic. -/
structure KafkaEvent (π : Type) where
  aggregateType : String
  eventType : String
  aggregateID : String
  topic : String
  traceparent : String := ""
  payload : Option π
  deriving DecidableEq, Repr

/-- One row of the ledger, with the surrogate id and the timestamps left out: the rows are kept in
the order of their last attempt. -/
structure ProjectionFailureRecord (π : Type) where
  kind : ProjectionFailureKind
  consumerGroup : String
  topic : String
  aggregateType : String
  eventType : String := ""
  aggregateID : String
  stage : String := ""
  localID : String := ""
  traceparent : String := ""
  payload : Option π := none
  error : String := ""
  attempt : ℕ := 1
  resolved : Bool := false
  deriving DecidableEq, Repr

/-- The natural key of a ledger row. -/
structure FailureKey where
  consumerGroup : String
  kind : ProjectionFailureKind
  topic : String
  aggregateType : String
  aggregateID : String
  deriving DecidableEq, Repr

variable {π : Type}

/-- The natural key of a row. -/
def ProjectionFailureRecord.key (r : ProjectionFailureRecord π) : FailureKey :=
  ⟨r.consumerGroup, r.kind, r.topic, r.aggregateType, r.aggregateID⟩

/-- The event a sweep rebuilds from a row. -/
def ProjectionFailureRecord.event (r : ProjectionFailureRecord π) : KafkaEvent π where
  aggregateType := r.aggregateType
  eventType := r.eventType
  aggregateID := r.aggregateID
  topic := r.topic
  traceparent := r.traceparent
  payload := r.payload

variable (rows : List (ProjectionFailureRecord π))

/-- Upsert one row: refreshed on a repeat of its key, with the attempt bumped and the row pending
again. -/
def recordProjectionFailure (rec : ProjectionFailureRecord π) :
    Except String (List (ProjectionFailureRecord π)) :=
  if rec.consumerGroup = "" then .error "record projection failure: consumer_group required"
  else if rec.aggregateType = "" then .error "record projection failure: aggregate_type required"
  else if rec.aggregateID = "" then .error "record projection failure: aggregate_id required"
  else if rec.kind = .event ∧ rec.payload.isNone then
    .error "record projection failure: an event row without a payload cannot be replayed"
  else if rec.kind = .ripple ∧ rec.payload.isSome then
    .error ("record projection failure: a ripple row must not carry a payload " ++
      "(replay reads current state)")
  else
    let attempt := match rows.find? (·.key = rec.key) with
      | some old => old.attempt + 1
      | none => 1
    .ok (rows.filter (·.key ≠ rec.key) ++ [{ rec with attempt, resolved := false }])

/-- Mark the pending row of a key resolved. -/
def resolveProjectionFailure (key : FailureKey) :
    Except String (List (ProjectionFailureRecord π)) :=
  if key.consumerGroup = "" ∨ key.aggregateType = "" ∨ key.aggregateID = "" then
    .error ("resolve projection failure: consumer_group, aggregate_type and aggregate_id are " ++
      "all required")
  else .ok (rows.map fun r => if r.key = key ∧ !r.resolved then { r with resolved := true } else r)

/-- The pending rows of a consumer group, oldest attempt first. -/
def listPendingProjectionFailures (consumerGroup : String) :
    Except String (List (ProjectionFailureRecord π)) :=
  if consumerGroup = "" then .error "list pending projection failures: consumer_group required"
  else .ok (rows.filter fun r => !r.resolved && r.consumerGroup = consumerGroup)

/-- Record an event in the ledger; a failure of the ledger write is only logged. -/
def parkEvent (groupID : String) (ev : KafkaEvent π) (cause : String) :
    List (ProjectionFailureRecord π) :=
  (recordProjectionFailure rows
    { kind := .event, consumerGroup := groupID, topic := ev.topic
      aggregateType := ev.aggregateType, eventType := ev.eventType, aggregateID := ev.aggregateID
      traceparent := ev.traceparent, payload := ev.payload, error := cause }).toOption.getD rows

namespace Ledger

variable {ι : Type} [DecidableEq ι] {ρ : Type} (decode : π → Option ρ) (group : ι → String)

/-- A sweep: the listed rows still to replay, and the row whose replay returned without error. -/
structure Sweep (π : Type) where
  pending : List (ProjectionFailureRecord π) := []
  resolving : Option (ProjectionFailureRecord π) := none
  deriving DecidableEq, Repr

/-- The ledger, the sweeps of the pods, and (as a history variable) the events some process call
applied with every obligation succeeding. -/
structure State (ι π : Type) where
  rows : List (ProjectionFailureRecord π) := []
  sweeps : ι → Sweep π
  applied : List (KafkaEvent π) := []

/-- One step of a consumer or of a sweep. -/
inductive Action (ι π : Type) where
  /-- A consumer or a rippler records a failure. -/
  | record (rec : ProjectionFailureRecord π)
  /-- A consumer of pod `i` processes an event; `errs` are the obligations that failed. -/
  | process (i : ι) (ev : KafkaEvent π) (errs : List String)
  /-- The sweep of pod `i` lists the pending rows. -/
  | list (i : ι)
  /-- The sweep processes the next listed row; `errs` are the obligations that failed. -/
  | replay (i : ι) (errs : List String)
  /-- The sweep resolves the row it has just replayed. -/
  | resolve (i : ι)
  /-- The resolution fails, and the sweep goes on without it. -/
  | resolveFailed (i : ι)
  /-- A rippler resolves a ripple row. -/
  | resolveRipple (consumerGroup topic aggregateType aggregateID : String)
  deriving DecidableEq, Repr

/-- `process` on pod `i`: an undecodable payload is parked and reported as a success; otherwise the
error joins the obligations that failed. -/
def process (s : State ι π) (i : ι) (ev : KafkaEvent π) (errs : List String) :
    State ι π × Option (List String) :=
  match ev.payload.bind decode with
  | none => ({ s with rows := parkEvent s.rows (group i) ev "undecodable payload" }, none)
  | some _ => if errs = [] then ({ s with applied := ev :: s.applied }, none) else (s, some errs)

/-- Replace the sweep of a pod. -/
def State.setSweep (s : State ι π) (i : ι) (sweep : Sweep π) : State ι π :=
  { s with sweeps := Function.update s.sweeps i sweep }

/-- The step function. -/
def step (s : State ι π) : Action ι π → Option (State ι π)
  | .record rec => some { s with rows := (recordProjectionFailure s.rows rec).toOption.getD s.rows }
  | .process i ev errs => some (process decode group s i ev errs).1
  | .list i =>
    match listPendingProjectionFailures s.rows (group i) with
    | .ok pending => some (s.setSweep i { pending })
    | .error _ => some (s.setSweep i {})
  | .replay i errs =>
    match s.sweeps i with
    | ⟨rec :: pending, none⟩ =>
      if rec.kind = .ripple then some (s.setSweep i { pending })
      else
        match process decode group s i rec.event errs with
        | (s', none) => some (s'.setSweep i { pending, resolving := some rec })
        | (s', some _) => some (s'.setSweep i { pending })
    | _ => none
  | .resolve i =>
    match (s.sweeps i).resolving with
    | some rec =>
      let rows := (resolveProjectionFailure s.rows
        ⟨group i, .event, rec.topic, rec.aggregateType, rec.aggregateID⟩).toOption.getD s.rows
      some ({ s with rows }.setSweep i { s.sweeps i with resolving := none })
    | none => none
  | .resolveFailed i => some (s.setSweep i { s.sweeps i with resolving := none })
  | .resolveRipple consumerGroup topic aggregateType aggregateID =>
    some { s with rows := (resolveProjectionFailure s.rows
      ⟨consumerGroup, .ripple, topic, aggregateType, aggregateID⟩).toOption.getD s.rows }

/-- The ledger as a transition system. -/
def machine : Machine (State ι π) (Action ι π) := ⟨step decode group⟩

/-- Before any sweep: no row is being replayed. -/
def Initial (s : State ι π) : Prop := ∀ i, s.sweeps i = {}

/-- The event rows a step takes from pending to resolved. -/
def resolvedRows (s : State ι π) : Action ι π → List (ProjectionFailureRecord π)
  | .resolve i =>
    match (s.sweeps i).resolving with
    | some rec => s.rows.filter fun r => !r.resolved &&
        r.key = ⟨group i, .event, rec.topic, rec.aggregateType, rec.aggregateID⟩
    | none => []
  | _ => []

/-- Every event row the step resolves still holds the payload its sweep listed and replayed, and
that payload decodes. -/
def ResolvesListed (s : State ι π) : Action ι π → Prop
  | .resolve i => ∀ rec ∈ (s.sweeps i).resolving, ∀ r ∈ resolvedRows group s (.resolve i),
      r.payload = rec.payload ∧ (r.payload.bind decode).isSome
  | _ => True

/-- Every event row the step resolves holds a decodable payload that a process call for its
aggregate applied with every obligation succeeding. -/
def ResolvesApplied (s : State ι π) (a : Action ι π) : Prop :=
  ∀ r ∈ resolvedRows group s a, (r.payload.bind decode).isSome ∧
    ∃ ev ∈ s.applied, ev.topic = r.topic ∧ ev.aggregateType = r.aggregateType ∧
      ev.aggregateID = r.aggregateID ∧ ev.payload = r.payload

instance [DecidableEq π] (s : State ι π) : DecidablePred (ResolvesListed decode group s)
  | .resolve i => inferInstanceAs (Decidable (∀ rec ∈ (s.sweeps i).resolving,
      ∀ r ∈ resolvedRows group s (.resolve i), _ ∧ _))
  | .record _ | .process _ _ _ | .list _ | .replay _ _ | .resolveFailed _
  | .resolveRipple _ _ _ _ => .isTrue trivial

instance [DecidableEq π] (s : State ι π) : DecidablePred (ResolvesApplied decode group s) :=
  fun a => inferInstanceAs (Decidable (∀ r ∈ resolvedRows group s a, _ ∧ _))

/-! ### What a replay without error means -/

variable {decode group}

variable {s s' : State ι π}

omit [DecidableEq ι] in
/-- The outcome of `process`: sweeps are untouched, nothing leaves the history, and a decodable
event processed without error enters it. -/
theorem process_spec {i : ι} {ev : KafkaEvent π} {errs : List String}
    {result : Option (List String)} (h : process decode group s i ev errs = (s', result)) :
    s'.sweeps = s.sweeps ∧ s.applied ⊆ s'.applied ∧
      (result = none → (ev.payload.bind decode).isSome → ev ∈ s'.applied) := by
  unfold process at h
  split at h
  · next hd =>
    obtain ⟨rfl, rfl⟩ := Prod.mk.inj h
    exact ⟨rfl, List.Subset.refl _, fun _ hs => by rw [hd] at hs; cases hs⟩
  · split_ifs at h
    · obtain ⟨rfl, rfl⟩ := Prod.mk.inj h
      exact ⟨rfl, List.subset_cons_self _ _, fun _ _ => List.mem_cons_self⟩
    · obtain ⟨rfl, rfl⟩ := Prod.mk.inj h
      exact ⟨rfl, List.Subset.refl _, fun hr => by cases hr⟩

variable (decode) in
/-- The invariant behind `resolves_applied`: a decodable row about to be resolved was applied. -/
def ReplaysApplied (s : State ι π) : Prop :=
  ∀ i, ∀ rec ∈ (s.sweeps i).resolving, (rec.payload.bind decode).isSome → rec.event ∈ s.applied

omit [DecidableEq ι] in
theorem ReplaysApplied.mono (hi : ReplaysApplied decode s) (hs : s'.sweeps = s.sweeps)
    (ha : s.applied ⊆ s'.applied) : ReplaysApplied decode s' :=
  fun i rec hrec hd => ha (hi i rec (hs ▸ hrec) hd)

theorem ReplaysApplied.setSweep (hi : ReplaysApplied decode s) {i : ι} {sweep : Sweep π}
    (h : ∀ rec ∈ sweep.resolving, (rec.payload.bind decode).isSome → rec.event ∈ s.applied) :
    ReplaysApplied decode (s.setSweep i sweep) :=
  (Function.forall_update_iff s.sweeps fun _ sweep => ∀ rec ∈ sweep.resolving,
    (rec.payload.bind decode).isSome → rec.event ∈ s.applied).2 ⟨h, fun j _ => hi j⟩

theorem ReplaysApplied.step {a : Action ι π} (hi : ReplaysApplied decode s)
    (h : (machine decode group).step s a = some s') : ReplaysApplied decode s' := by
  cases a with
  | record | resolveRipple => obtain rfl := some.inj h; exact hi
  | process i ev errs =>
    obtain rfl := some.inj h
    obtain ⟨hs, ha, -⟩ := process_spec (Prod.eta (process decode group s i ev errs)).symm
    exact hi.mono hs ha
  | list i =>
    simp only [machine, Ledger.step] at h
    split at h <;> obtain rfl := some.inj h <;> exact hi.setSweep (by simp)
  | replay i errs =>
    simp only [machine, Ledger.step] at h
    split at h
    · next rec pending _ =>
      split_ifs at h
      · obtain rfl := some.inj h; exact hi.setSweep (by simp)
      · split at h <;> obtain rfl := some.inj h
        · next s1 hp =>
          obtain ⟨hs, ha, happ⟩ := process_spec hp
          refine (hi.mono hs ha).setSweep ?_
          rintro rec' hrec hd
          obtain rfl := some.inj hrec
          exact happ rfl hd
        · next s1 errs' hp =>
          obtain ⟨hs, ha, -⟩ := process_spec hp
          exact (hi.mono hs ha).setSweep (by simp)
    · cases h
  | resolve i =>
    simp only [machine, Ledger.step] at h
    split at h
    · obtain rfl := some.inj h
      exact (hi.mono rfl (List.Subset.refl _)).setSweep (by simp)
    · cases h
  | resolveFailed i => obtain rfl := some.inj h; exact hi.setSweep (by simp)

/-- **Ledger soundness.**  In every interleaving of consumers and sweeps in which a sweep resolves
only rows that still hold the decodable payload it replayed, each event row that goes from pending
to resolved holds a payload some process call applied with every obligation succeeding. -/
theorem resolves_applied (decode : π → Option ρ) (group : ι → String) {s₀ : State ι π}
    (h₀ : Initial s₀) (as : List (Action ι π))
    (hc : (machine decode group).Along (ResolvesListed decode group) s₀ as) :
    (machine decode group).Along (ResolvesApplied decode group) s₀ as := by
  refine Machine.along_of_invariant (I := ReplaysApplied decode)
    (fun s a s' hi _ h => hi.step h) (fun s a hi hc r hr => ?_) (fun i rec hrec => ?_) hc
  · cases a with
    | resolve i =>
      cases hres : (s.sweeps i).resolving with
      | none => simp [resolvedRows, hres] at hr
      | some rec =>
        obtain ⟨hpay, hd⟩ := hc rec (by simp [hres]) r hr
        have happ := hi i rec (by simp [hres]) (hpay ▸ hd)
        simp only [resolvedRows, hres, List.mem_filter, Bool.and_eq_true, decide_eq_true_eq,
          ProjectionFailureRecord.key, FailureKey.mk.injEq] at hr
        obtain ⟨-, -, -, -, ht, hty, hid⟩ := hr
        exact ⟨hd, rec.event, happ, ht.symm, hty.symm, hid.symm, hpay.symm⟩
    | _ => simp [resolvedRows] at hr
  · simp [h₀ i] at hrec

/-- A parser that refuses one payload. -/
def parse (payload : String) : Option String :=
  if payload = "corrupt" then none else some payload

/-- An event of the order `o1`. -/
def orderEvent (payload : String) : KafkaEvent String where
  aggregateType := "orders"
  eventType := "UPDATED"
  aggregateID := "o1"
  topic := "outbox.orders"
  payload := some payload

/-- The row under which `orderEvent` is parked. -/
def orderRow (payload : String) : ProjectionFailureRecord String where
  kind := .event
  consumerGroup := "svc"
  topic := "outbox.orders"
  aggregateType := "orders"
  eventType := "UPDATED"
  aggregateID := "o1"
  payload := some payload

/-- No row and no sweep. -/
def emptyLedger : State (Fin 2) String where
  sweeps := fun _ => {}

theorem resolves_applied_order :
    (machine parse fun _ => "svc").Along (ResolvesApplied parse fun _ => "svc") emptyLedger
      [.record (orderRow "v1"), .list 0, .replay 0 ["timeout"], .record (orderRow "v2"), .list 1,
        .replay 1 [], .resolve 1] :=
  resolves_applied parse (fun _ => "svc") (fun _ => rfl) _ (by decide)

/-- A newer event is parked between the replay of a row and its resolution; and a corrupt payload,
parked by a consumer, is parked once more and then resolved by the sweep. -/
theorem resolves_unapplied :
    Initial emptyLedger ∧
    ¬(machine parse fun _ => "svc").Along (ResolvesApplied parse fun _ => "svc") emptyLedger
      [.record (orderRow "v1"), .list 0, .replay 0 [], .record (orderRow "v2"), .resolve 0] ∧
    ¬(machine parse fun _ => "svc").Along (ResolvesApplied parse fun _ => "svc") emptyLedger
      [.process 0 (orderEvent "corrupt") [], .list 0, .replay 0 [], .resolve 0] :=
  ⟨fun _ => rfl, by decide, by decide⟩

end Ledger

end Omnicore.Query
