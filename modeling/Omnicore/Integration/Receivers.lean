import Omnicore.Lib.AssocMap
import Omnicore.Lib.Machine

/-!
# Receivers of integration events

A message is handled once and then reported as done, whatever came of it.  Three records tell what
did: the mark of a processed event, by which a redelivery is skipped, the row of a failed one, and
the resolution of that row by a sweep, which handles the stored payload again.  A handler may also
answer with a result that is no success.  That writes the row of a failure and the mark as well, so
the sweep takes the event for processed and resolves the row.

## Main definitions

* `handleMessage` : the pipeline of one message.
* `receiverMachine` : deliveries and retries of a sweep, over any receivers, every store that fails.

## Main results

* `resolved_by_success_iff` : resolved rows are of events whose handler has succeeded, exactly along
  the runs in which a sweep retries no event of `Unproven`.
* `done_covered_iff` : a message reported as done has succeeded or has a pending row, exactly if it
  had before, or is handled and the row of its failure written.
-/

namespace Omnicore.Integration

open AssocMap

/-- A receiver: the failure rows of its events have its natural key. -/
structure Receiver where
  consumerGroup : String
  sourceKey : String
  eventKey : String
  deriving DecidableEq, Repr

/-- What comes of the payload: it does not decode, or the handler returns an error, a result that is
no success, or one that is. -/
inductive Invocation where
  | undecodable
  | error
  | unsuccessful
  | successful
  deriving DecidableEq, Repr

/-- How one handling goes; a store that fails or a context that is cancelled leaves its steps
undone. -/
structure Attempt where
  invocation : Invocation
  dedupAnswers : Bool := true
  failureStored : Bool := true
  markStored : Bool := true
  deriving DecidableEq, Repr

inductive FailureStatus where
  | pending
  | resolved
  deriving DecidableEq, Repr

/-- The marks of processed events, the failure rows, and the successful invocations so far. -/
structure Inbox where
  processed : List (String × String) := []
  failures : AssocMap (Receiver × String) FailureStatus := []
  succeeded : List (Receiver × String) := []
  deriving DecidableEq, Repr

namespace Inbox

variable (s : Inbox) (r : Receiver) (id : String)

/-- `RecordIntegrationFailure`: a row that is there is opened again. -/
def recordIntegrationFailure (stored : Bool) : Inbox :=
  if stored then { s with failures := s.failures.set (r, id) .pending } else s

/-- `MarkProcessed`. -/
def markProcessed (stored : Bool) : Inbox :=
  if stored then { s with processed := (id, r.consumerGroup) :: s.processed } else s

/-- `ResolveIntegrationFailures`. -/
def resolveIntegrationFailures : Inbox :=
  if s.failures.get (r, id) = some .pending then
    { s with failures := s.failures.set (r, id) .resolved }
  else s

/-- `IsAlreadyProcessed`, as far as the store answers. -/
def isAlreadyProcessed (a : Attempt) : Bool := a.dedupAnswers && (id, r.consumerGroup) ∈ s.processed

/-- The pipeline of one message, which may carry no event id: whether it returned no error, and what
it leaves. -/
def handleMessage (eventID : Option String) (a : Attempt) : Bool × Inbox :=
  match eventID with
  | none => (false, s)
  | some id =>
    if s.isAlreadyProcessed r id a then (true, s)
    else
      match a.invocation with
      | .undecodable | .error => (false, s.recordIntegrationFailure r id a.failureStored)
      | .unsuccessful =>
        (true, (s.recordIntegrationFailure r id a.failureStored).markProcessed r id a.markStored)
      | .successful =>
        (true, { s with succeeded := (r, id) :: s.succeeded }.markProcessed r id a.markStored)

/-- One turn of a sweep over the rows it has listed. -/
def retryPendingFailure (a : Attempt) (resolves : Bool) : Inbox :=
  if s.failures.get (r, id) = none then s
  else
    let (ok, s') := s.handleMessage r (some id) a
    if ok && resolves then s'.resolveIntegrationFailures r id else s'

end Inbox

/-- A message is handled and reported as done, or a sweep retries a row. -/
inductive InboxStep where
  | deliver (r : Receiver) (eventID : Option String) (a : Attempt)
  | retry (r : Receiver) (id : String) (a : Attempt) (resolves : Bool)
  deriving DecidableEq, Repr

/-- Deliveries and retries in any order. -/
def receiverMachine : Machine Inbox InboxStep where
  step s
    | .deliver r eventID a => some (s.handleMessage r eventID a).2
    | .retry r id a resolves => some (s.retryPendingFailure r id a resolves)

/-! ### Resolved rows -/

/-- The event of a resolved row has had a successful invocation. -/
def ResolvedBySuccess (s : Inbox) : Prop := ∀ k, s.failures.get k = some .resolved → k ∈ s.succeeded

/-- The pipeline returns no error although the handler has not succeeded: the event is marked, or
the handler answers with a result that is no success. -/
def Unproven (s : Inbox) (r : Receiver) (id : String) (a : Attempt) : Prop :=
  s.isAlreadyProcessed r id a = true ∨ a.invocation = .unsuccessful

/-- A sweep that resolves the row of an event without a success so far does not retry an unproven
one. -/
def RetriesProven (s : Inbox) : InboxStep → Prop
  | .deliver .. => True
  | .retry r id a resolves => s.failures.get (r, id) = none ∨ (r, id) ∈ s.succeeded ∨
      resolves = false ∨ ¬Unproven s r id a

variable {s : Inbox}

/-- What the pipeline does to the rows and the successes: it opens the event's own row at most and
adds a success exactly when the handler was called and had one. -/
theorem handleMessage_spec (s : Inbox) (r : Receiver) (id : String) (a : Attempt) :
    (∀ k, (s.handleMessage r (some id) a).2.failures.get k =
      if k = (r, id) ∧ s.isAlreadyProcessed r id a = false ∧ a.invocation ≠ .successful ∧
          a.failureStored = true then some .pending else s.failures.get k) ∧
    (s.handleMessage r (some id) a).2.succeeded =
      if s.isAlreadyProcessed r id a = false ∧ a.invocation = .successful then
        (r, id) :: s.succeeded else s.succeeded := by
  have hmark (s : Inbox) : (s.markProcessed r id a.markStored).failures = s.failures ∧
      (s.markProcessed r id a.markStored).succeeded = s.succeeded := by
    unfold Inbox.markProcessed
    split_ifs <;> exact ⟨rfl, rfl⟩
  have hset (k) : (s.failures.set (r, id) .pending).get k =
      if k = (r, id) then some .pending else s.failures.get k := by
    rw [get_set]
    simp [eq_comm]
  unfold Inbox.handleMessage
  cases hd : s.isAlreadyProcessed r id a
  · cases hi : a.invocation <;> cases hf : a.failureStored <;>
      simp_all [Inbox.recordIntegrationFailure]
  · simp [hd]

theorem handleMessage_fst (s : Inbox) (r : Receiver) (id : String) (a : Attempt) :
    (s.handleMessage r (some id) a).1 = true ↔ Unproven s r id a ∨ a.invocation = .successful := by
  unfold Inbox.handleMessage Unproven
  cases hd : s.isAlreadyProcessed r id a
  · cases hi : a.invocation <;> simp [hd]
  · simp [hd]

theorem ResolvedBySuccess.handleMessage (h : ResolvedBySuccess s) (r : Receiver)
    (eventID : Option String) (a : Attempt) :
    ResolvedBySuccess (s.handleMessage r eventID a).2 := by
  cases eventID with
  | none => exact h
  | some id =>
    obtain ⟨hrows, hsucc⟩ := handleMessage_spec s r id a
    intro k hk
    rw [hrows] at hk
    have hmem : k ∈ s.succeeded := by
      split_ifs at hk with hopened
      · cases hk
      · exact h k hk
    rw [hsucc]
    split_ifs
    · exact List.mem_cons_of_mem _ hmem
    · exact hmem

theorem resolvedBySuccess_resolve {r : Receiver} {id : String} (h : ResolvedBySuccess s)
    (hrow : s.failures.get (r, id) ≠ none) :
    ResolvedBySuccess (s.resolveIntegrationFailures r id) ↔ (r, id) ∈ s.succeeded := by
  unfold Inbox.resolveIntegrationFailures
  split_ifs with hp
  · refine ⟨fun h' => h' (r, id) (by simp), fun hmem k hk => ?_⟩
    by_cases hkey : k = (r, id)
    · exact hkey ▸ hmem
    · exact h k (by simpa [get_set_ne _ _ (Ne.symm hkey)] using hk)
  · refine iff_of_true h (h _ ?_)
    obtain ⟨st, hst⟩ := Option.ne_none_iff_exists'.mp hrow
    cases st <;> simp_all

theorem resolvedBySuccess_step (h : ResolvedBySuccess s) (b : InboxStep) :
    ∃ s', receiverMachine.step s b = some s' ∧ True ∧
      (ResolvedBySuccess s' ↔ RetriesProven s b) := by
  cases b with
  | deliver r eventID a =>
    exact ⟨_, rfl, trivial, iff_of_true (h.handleMessage r eventID a) trivial⟩
  | retry r id a resolves =>
    refine ⟨_, rfl, trivial, ?_⟩
    obtain ⟨hrows, hsucc⟩ := handleMessage_spec s r id a
    have hok := handleMessage_fst s r id a
    have hh := h.handleMessage r (some id) a
    simp only [Inbox.retryPendingFailure, RetriesProven]
    split_ifs with hrow hres
    · exact iff_of_true h (.inl hrow)
    · have hrow' : (s.handleMessage r (some id) a).2.failures.get (r, id) ≠ none := by
        rw [hrows]
        split_ifs
        · simp
        · exact hrow
      rw [Bool.and_eq_true, hok] at hres
      rw [resolvedBySuccess_resolve hh hrow', hsucc]
      split_ifs with hcalled
      · exact iff_of_true List.mem_cons_self (.inr (.inr (.inr (by simp [Unproven, hcalled]))))
      · -- a success of a handler that was not called: the event is marked
        have hun : Unproven s r id a := by
          rcases hres.1 with hun | hsuccess
          · exact hun
          · exact .inl (Bool.not_eq_false _ ▸ fun hnew => hcalled ⟨hnew, hsuccess⟩)
        simp [hrow, hres.2, hun]
    · refine iff_of_true hh (.inr (.inr ?_))
      cases resolves <;> simp_all

/-- **Resolved rows.**  In every state of a run of deliveries and retries the event of a resolved
failure row has had a successful invocation, exactly when no retry resolves the row of an event
without one that is marked as processed or whose handler answers with a result that is no
success. -/
theorem resolved_by_success_iff (as : List InboxStep) :
    receiverMachine.Always ResolvedBySuccess {} as ↔ receiverMachine.Along RetriesProven {} as :=
  Machine.always_iff_along (K := fun _ => True) (fun b _ _ _ h => resolvedBySuccess_step h b)
    trivial fun _ hk => by simp at hk

/-- The receiver of the examples. -/
def orders : Receiver := ⟨"billing", "orders", "created"⟩

/-- A handler answers with a result that is no success, and the next sweep skips the event as
processed and resolves its row. -/
theorem resolved_without_success : ¬receiverMachine.Always ResolvedBySuccess {}
    [.deliver orders (some "e1") { invocation := .unsuccessful },
      .retry orders "e1" { invocation := .error } true] := by
  intro h
  have hmem := h.2.2 (orders, "e1") (by decide)
  exact absurd hmem (by decide)

/-! ### Messages reported as done -/

/-- The event has had a successful invocation in the group, or its row is pending. -/
def Covered (s : Inbox) (r : Receiver) (eventID : Option String) : Prop :=
  ∃ id, eventID = some id ∧ ((∃ k ∈ s.succeeded, k.1.consumerGroup = r.consumerGroup ∧ k.2 = id) ∨
    s.failures.get (r, id) = some .pending)

/-- A delivered message is covered when it is reported as done. -/
def DoneCovered (s : Inbox) : InboxStep → Prop
  | .deliver r eventID a => Covered (s.handleMessage r eventID a).2 r eventID
  | .retry .. => True

/-- The message was covered before, or it has an event id that is not taken for processed, and its
handler succeeds or the row of its failure is written. -/
def Settles (s : Inbox) : InboxStep → Prop
  | .deliver r eventID a => Covered s r eventID ∨ ∃ id, eventID = some id ∧
      s.isAlreadyProcessed r id a = false ∧ (a.invocation = .successful ∨ a.failureStored = true)
  | .retry .. => True

theorem doneCovered_iff_settles (b : InboxStep) : DoneCovered s b ↔ Settles s b := by
  cases b with
  | retry => exact Iff.rfl
  | deliver r eventID a =>
    cases eventID with
    | none => simp [DoneCovered, Settles, Covered]
    | some id =>
      simp only [DoneCovered, Settles, Covered, Option.some.injEq, exists_eq_left']
      obtain ⟨hrows, hsucc⟩ := handleMessage_spec s r id a
      rw [hrows, hsucc]
      cases s.isAlreadyProcessed r id a
      · by_cases hi : a.invocation = .successful <;> cases a.failureStored <;> simp [hi]
      · simp

/-- **Messages reported as done.**  Along a run of deliveries and retries every message is, when it
is reported as done, of an event with a successful invocation in the group or with a pending row,
exactly when each was so before, or has an event id that is not taken for processed, and its handler
succeeds or the row of its failure is written. -/
theorem done_covered_iff (as : List InboxStep) :
    receiverMachine.Along DoneCovered {} as ↔ receiverMachine.Along Settles {} as :=
  ⟨.mono fun _ b => (doneCovered_iff_settles b).mp,
    .mono fun _ b => (doneCovered_iff_settles b).mpr⟩

/-- A message without an event id is reported as done, and nothing is left of it. -/
theorem done_without_event_id : ¬receiverMachine.Along DoneCovered {}
    [.deliver orders none { invocation := .successful }] := by
  rintro ⟨⟨id, hid, -⟩, -⟩
  cases hid

end Omnicore.Integration
