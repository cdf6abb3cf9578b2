import Omnicore.Lib.Machine
import Mathlib.Data.List.Basic

/-!
# Calls that share one execution

The token layer collapses concurrent calls: the first one runs the function, and those that come
while it runs wait and read the shared result.  A caller that waits tests the flag again when it
gets the lock back.  When another execution has begun by then it goes on waiting, and returns what
the later one left.

## Main results

* `flights_shared_iff` : one execution runs at a time and every caller returns the result of the one
  it joined, exactly when every caller gets the lock back before another result.
-/

namespace Omnicore.HttpClient

/-- Where a call of `Do` is, with the number of the execution that it runs or joined. -/
inductive Caller (ρ : Type) where
  | idle
  | running (execution : ℕ)
  | waiting (execution : ℕ)
  | returned (execution : ℕ) (result : Option ρ)

/-- The shared fields, the calls, and what the executions so far ended with. -/
structure SingleFlight (ι ρ : Type) where
  inFlight : Bool := false
  result : Option ρ := none
  callers : ι → Caller ρ := fun _ => .idle
  ended : List ρ := []

/-- The critical sections of a call. -/
inductive FlightAction (ι ρ : Type) where
  | enter (i : ι)
  | finish (i : ι) (result : ρ)
  | wake (i : ι)

variable {ι ρ : Type}

namespace SingleFlight

variable [DecidableEq ι]

/-- A step of `Do`; an action that is not the next one of its call does nothing. -/
def step (s : SingleFlight ι ρ) : FlightAction ι ρ → SingleFlight ι ρ
  | .enter i =>
    match s.callers i with
    | .idle =>
      if s.inFlight then { s with callers := Function.update s.callers i (.waiting s.ended.length) }
      else { s with
        inFlight := true
        callers := Function.update s.callers i (.running s.ended.length) }
    | _ => s
  | .finish i result =>
    match s.callers i with
    | .running k => {
        inFlight := false
        result := some result
        callers := Function.update s.callers i (.returned k (some result))
        ended := s.ended ++ [result] }
    | _ => s
  | .wake i =>
    match s.callers i with
    | .waiting k =>
      -- the loop around the wait tests the flag again
      if s.inFlight then s
      else { s with callers := Function.update s.callers i (.returned k s.result) }
    | _ => s

/-- Any interleaving of the calls. -/
def machine : Machine (SingleFlight ι ρ) (FlightAction ι ρ) := ⟨fun s a => some (s.step a)⟩

/-- At most one execution runs, and every caller returned the result of the one it joined. -/
def Shared (s : SingleFlight ι ρ) : Prop :=
  (∀ i j k l, s.callers i = .running k → s.callers j = .running l → i = j) ∧
    ∀ i k r, s.callers i = .returned k r → k < s.ended.length ∧ r = s.ended[k]?

/-- A caller gets the lock back while the latest result is that of the execution it joined. -/
def InTime (s : SingleFlight ι ρ) (a : FlightAction ι ρ) : Prop :=
  ∀ i k, a = .wake i → s.callers i = .waiting k → s.inFlight = false →
    s.ended[k]? = s.ended.getLast?

/-- What every step keeps. -/
structure Inv (s : SingleFlight ι ρ) : Prop where
  alone : ∀ i j k l, s.callers i = .running k → s.callers j = .running l → i = j
  running : ∀ i k, s.callers i = .running k → s.inFlight = true ∧ k = s.ended.length
  waiting : ∀ i k, s.callers i = .waiting k →
    k < s.ended.length ∨ s.inFlight = true ∧ k = s.ended.length
  latest : s.result = s.ended.getLast?

variable {s : SingleFlight ι ρ}

/-- **One step.**  Only a caller that gets the lock back can return another result. -/
theorem Inv.step (h : s.Inv) (hs : s.Shared) (a : FlightAction ι ρ) :
    (s.step a).Inv ∧ ((s.step a).Shared ↔ s.InTime a) := by
  obtain ⟨halone, hrunning, hwaiting, hlatest⟩ := id h
  obtain ⟨-, hreturned⟩ := id hs
  cases a with
  | enter i =>
    rw [iff_true_right (show s.InTime (.enter i) from nofun)]
    simp only [SingleFlight.step]
    split
    · split_ifs <;> refine ⟨⟨?_, ?_, ?_, ?_⟩, ?_, ?_⟩ <;> grind [Function.update_apply]
    · exact ⟨h, hs⟩
  | finish i result =>
    rw [iff_true_right (show s.InTime (.finish i result) from nofun)]
    simp only [SingleFlight.step]
    split
    · refine ⟨⟨?_, ?_, ?_, ?_⟩, ?_, ?_⟩ <;> grind [Function.update_apply]
    · exact ⟨h, hs⟩
  | wake i =>
    simp only [SingleFlight.step]
    split
    · rename_i k hi
      split_ifs with hf
      · exact ⟨h, iff_of_true hs (by grind [InTime])⟩
      · have hk : k < s.ended.length := (hwaiting i k hi).resolve_right fun hk => hf hk.1
        refine ⟨by constructor <;> grind [Function.update_apply], fun hown j k' hj hk' _ => ?_,
          fun htime => ⟨?_, ?_⟩⟩
        · cases hj
          cases hi.symm.trans hk'
          rw [← hlatest]
          exact (hown.2 i k _ (Function.update_self ..)).2.symm
        · grind [Function.update_apply]
        · have := htime i k rfl hi (by simpa using hf)
          grind [Function.update_apply]
    · exact ⟨h, iff_of_true hs (by grind [InTime])⟩

end SingleFlight

open SingleFlight in
/-- **Callers share the execution they joined.**  Along every interleaving one execution runs at a
time and every caller returns what the one it joined ended with, exactly when every caller gets the
lock back while the latest result is still that one, or one like it. -/
theorem flights_shared_iff [DecidableEq ι] (as : List (FlightAction ι ρ)) :
    machine.Always Shared {} as ↔ machine.Along InTime {} as := by
  refine Machine.always_iff_along (K := Inv) (fun a _ s h hs => ⟨_, rfl, h.step hs a⟩) ?_ ?_
  · exact ⟨nofun, nofun, nofun, rfl⟩
  · exact ⟨nofun, nofun⟩

/-- The second caller joins the first execution and is scheduled after the second. -/
theorem waiter_returns_later : ((SingleFlight.machine (ι := ℕ) (ρ := String)).run {}
    [.enter 1, .enter 2, .finish 1 "a", .enter 3, .wake 2, .finish 3 "b", .wake 2]).map
      (fun s => s.callers 2) = some (.returned 0 (some "b")) := rfl

end Omnicore.HttpClient
