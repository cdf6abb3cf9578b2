import Omnicore.Lib.Machine
import Mathlib.Tactic.SplitIfs

/-!
# Validation passes and the transition a rule asks for

The rules of an update may call `CompleteAsArchive`, and the update is then sealed as an archive.
The request is a field of the entity, and only an update that was accepted takes it off: a check by
`IsValid` and an update that fails leave it to the next pass.

## Main results

* `sealed_by_own_rules_iff` : an update is sealed as an archive by the rules of its own pass,
  exactly when no earlier pass left a request to one whose rules do not ask.
-/

namespace Omnicore.Domain

inductive EntityMode where
  | unknown | display | insert | update | delete | archive | unarchive
  deriving DecidableEq

/-- What `BuildRules` does in one pass. -/
structure RulesRun (α ν : Type) where
  fields : α
  notifications : List ν := []
  /-- It calls `CompleteAsArchive`. -/
  completes : Bool := false
  /-- `StopIfInvalid` ended it. -/
  halted : Bool := false
  /-- It panics of its own, or a rule of a child does. -/
  panics : Bool := false
  /-- What the value objects and the children report after it. -/
  automatic : List ν := []

structure EntityType (α σ ν : Type) where
  modes : List EntityMode
  requiresService : Bool := false
  serviceIsRequired : ν
  notAllowed : EntityMode → ν
  idErrors : EntityMode → α → List ν
  buildRules : EntityMode → String → Option σ → α → RulesRun α ν

/-- What a pass leaves on an entity for the next one. -/
structure EntityState (α ν : Type) where
  fields : α
  notifications : List ν := []
  requestedMode : EntityMode := .unknown
  /-- Nothing but an archive is ever requested. -/
  known : requestedMode = .unknown ∨ requestedMode = .archive := by simp

structure Updatable where
  entityMode : EntityMode
  isPartial : Bool

/-- A validation pass.  `apply` changes the fields and adds notifications, and may fail. -/
inductive Pass (α σ ν : Type) where
  | isValid (mode : EntityMode) (service : Option σ)
  | update (apply : α → α × List ν × Bool) (actionName : String) (service : Option σ)
      (isPartial : Bool)

namespace EntityType

variable {α σ ν : Type} (t : EntityType α σ ν) (e : EntityState α ν)

/-- `validateForInsert` and its siblings: whether they end without an error and without a panic. -/
def validateFor (mode : EntityMode) (actionName : String) (service : Option σ) :
    Bool × EntityState α ν :=
  if service.isNone ∧ t.requiresService then
    (false, { e with notifications := e.notifications ++ [t.serviceIsRequired] })
  else
    let run := t.buildRules mode actionName service e.fields
    let e := {
      fields := run.fields
      notifications := e.notifications ++ run.notifications
      requestedMode := if run.completes ∧ mode = .update then .archive else e.requestedMode
      known := by grind [e.known] }
    -- only an update may ask for the transition
    if run.panics ∨ run.completes ∧ mode ≠ .update then (false, e)
    else
      let notifications := e.notifications ++
        (if mode ∈ t.modes then [] else [t.notAllowed mode]) ++ t.idErrors mode e.fields ++
        (if run.halted then [] else run.automatic)
      (notifications.isEmpty, { e with notifications })

/-- `IsValid`, and `GetUpdatable` and `GetPartialUpdatable` with what they return. -/
def pass : Pass α σ ν → Option Updatable × EntityState α ν
  | .isValid mode service =>
    let e := { e with notifications := [] }
    (none, if mode = .unknown ∨ mode = .display then e
      else (t.validateFor e mode "isValid" service).2)
  | .update apply actionName service isPartial =>
    let (fields, added, fails) := apply e.fields
    let e := { e with fields, notifications := e.notifications ++ added }
    if fails then (none, e)
    else
      match t.validateFor e .update actionName service with
      | (true, e) =>
        (if e.requestedMode = .unknown then some ⟨.update, isPartial⟩
          -- a transition that is not declared panics
          else if e.requestedMode ∈ t.modes then some ⟨e.requestedMode, isPartial⟩ else none,
          { e with requestedMode := .unknown, known := .inl rfl })
      | (false, e) => (none, e)

/-- Passes on one entity, one after another. -/
def machine : Machine (EntityState α ν) (Pass α σ ν) := ⟨fun e p => some (t.pass e p).2⟩

/-- The pass runs the rules, and they call `CompleteAsArchive`. -/
def Asks : Pass α σ ν → Prop
  | .isValid _ _ => False
  | .update apply actionName service _ => (service.isSome ∨ t.requiresService = false) ∧
      (t.buildRules .update actionName service (apply e.fields).1).completes = true

/-- An update that the pass returns is an archive exactly when its own rules asked for one. -/
def SealedByOwnRules (p : Pass α σ ν) : Prop :=
  ∀ u ∈ (t.pass e p).1, u.entityMode = .archive ↔ t.Asks e p

/-- No request is left from an earlier pass, unless the rules of this one ask as well. -/
def NoneLeft (p : Pass α σ ν) : Prop := e.requestedMode = .unknown ∨ t.Asks e p

variable {t e}

theorem requestedMode_validateFor (actionName : String) (service : Option σ) :
    (t.validateFor e .update actionName service).2.requestedMode =
      if (service.isSome ∨ t.requiresService = false) ∧
        (t.buildRules .update actionName service e.fields).completes then .archive
      else e.requestedMode := by
  rw [validateFor]
  cases service <;> grind

theorem sealedByOwnRules_iff (p : Pass α σ ν) :
    t.SealedByOwnRules e p ↔ ((t.pass e p).1.isSome → t.NoneLeft e p) := by
  cases p with
  | isValid mode service => exact iff_of_true nofun nofun
  | update apply actionName service isPartial =>
    simp only [SealedByOwnRules, NoneLeft, Asks, pass]
    split_ifs
    · simp
    · split
      · rename_i e' haccepted
        have hreq : e'.requestedMode = _ := haccepted ▸ requestedMode_validateFor actionName service
        split_ifs at hreq with hask
        · simp [hreq, hask]
        · rcases e.known with hold | hold <;> simp [hreq, hask, hold]
      · simp

/-- **The transition belongs to the pass that asked for it.**  In every sequence of passes on an
entity, the updates are sealed by their own rules exactly when no request was left to one of them
whose rules do not ask. -/
theorem sealed_by_own_rules_iff (fields : α) (notifications : List ν) (ps : List (Pass α σ ν)) :
    t.machine.Along t.SealedByOwnRules { fields, notifications } ps ↔
      t.machine.Along (fun e p => (t.pass e p).1.isSome → t.NoneLeft e p)
        { fields, notifications } ps :=
  ⟨.mono fun _ p => (sealedByOwnRules_iff p).1, .mono fun _ p => (sealedByOwnRules_iff p).2⟩

end EntityType

/-- `IsValid` runs the rules on a full entity, and the update that follows changes it: its rules
do not ask, and it is sealed as an archive. -/
theorem request_outlives_its_pass :
    let t : EntityType Bool Unit String := {
      modes := [.update, .archive]
      serviceIsRequired := "service"
      notAllowed := fun _ => "mode"
      idErrors := fun _ _ => []
      buildRules := fun mode _ _ full => { fields := full, completes := full && mode = .update } }
    let e := (t.pass { fields := true } (.isValid .update none)).2
    let p := .update (fun _ => (false, [], false)) "GetUpdatable" none false
    ¬t.Asks e p ∧ (t.pass e p).1 = some ⟨.archive, false⟩ :=
  ⟨by rintro ⟨-, ⟨⟩⟩, rfl⟩

end Omnicore.Domain
