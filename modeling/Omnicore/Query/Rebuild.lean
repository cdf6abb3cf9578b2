import Mathlib.Data.Fintype.Basic
import Omnicore.Lib.Machine
import Omnicore.Query.Slots

/-!
# Rebuilding a view from any number of pods

`ExecuteRebuild` computes its build target from the pod's pointer cache, takes the exclusive
rebuild lock of the view, resets a stale shadow, drops and provisions the target slot, records it
in the registry, backfills and verifies it, flips the active pointer and stores the new hashes.
The machine of this file runs any number of such drivers on one view, one statement per step, next
to resolver refreshes, drift plans read at boot, crashes, and the abandonment of the rebuild by
writers that cannot reach the shadow slot.

## Main results

* `Rebuild.drivers_exclusive` : only the holder of the lock is past it.
* `Rebuild.drops_spare_active` : no driver drops the active collection, along every run in which
  each driver takes the lock while neither its target nor the shadow it takes over is active.
* `Rebuild.end_switched` : an `EndRebuild` finds the registry naming the slot of its own run as
  active, along every run in which no writer abandons the rebuild between the recording of the
  slot and the flip.
-/

namespace Omnicore.Query.Rebuild

open Option Function ViewRegistryRow List

/-- What the boot of a pod knows of the view: the registry row it read, and the declared spec. -/
structure DriftPlan where
  registry : Option ViewRegistryRow := none
  current : ViewSpec := ⟨0, "", "", ""⟩
  deriving DecidableEq, Repr

/-- How far a driver is; each stage names the statement executed last. -/
inductive Stage where
  | idle
  | planned
  | targeted
  | locked
  | checked
  | staleFlagCleared
  | staleDropped
  | ready
  | processing
  | dropped
  | provisioned
  | recorded
  | fenced
  | backfilled
  | verified
  | flipped
  | observed
  | ended
  | discarding
  | discardFlagCleared
  | discardDropped
  deriving DecidableEq, Repr

open Stage

/-- A pod: the pointer cache of its resolver, and its driver with the local variables of
`ExecuteRebuild`. -/
structure Pod where
  cache : Option ViewPointer := none
  stage : Stage := .idle
  plan : DriftPlan := {}
  oldActive : String := ""
  shadow : String := ""
  deriving DecidableEq, Repr

/-- The shared state: the registry row of the view, the holder of its rebuild lock, the physical
collections that exist, and the pods. -/
structure State (ι : Type) where
  registry : Option ViewRegistryRow
  lock : Option ι := none
  collections : List String
  pods : ι → Pod

open State

/-- One step of one pod. -/
inductive Action (ι : Type) where
  /-- The resolver of the pod re-reads the registry. -/
  | refresh (p : ι)
  /-- The boot of the pod reads the registry row and plans a rebuild to `current`. -/
  | plan (p : ι) (current : ViewSpec)
  /-- `ExecuteRebuild` reads `Active` and `Shadow` and validates its configuration. -/
  | execute (p : ι) (orphan : String)
  /-- The driver's next statement succeeds. -/
  | next (p : ι)
  /-- The driver's current statement fails in a way the run handles itself. -/
  | reject (p : ι)
  /-- The driver returns an error or its process dies; the lock session ends with it. -/
  | fail (p : ι)
  /-- A writer of the pod gives up on the shadow slot (`dualApplyShadow`). -/
  | abandon (p : ι)
  deriving DecidableEq, Repr

variable {ι : Type} [DecidableEq ι]

/-- Replace a pod. -/
def State.setPod (s : State ι) (p : ι) (pod : Pod) : State ι :=
  { s with pods := update s.pods p pod }

/-- Move a pod's driver to a stage. -/
def State.goto (s : State ι) (p : ι) (stage : Stage) : State ι := s.setPod p { s.pods p with stage }

/-- Re-read the registry into a pod's cache. -/
def State.refreshPod (s : State ι) (p : ι) : State ι :=
  s.setPod p { s.pods p with cache := refresh s.registry }

/-- Drop a physical collection. -/
def State.dropCollection (s : State ι) (name : String) : State ι :=
  { s with collections := s.collections.filter (· ≠ name) }

/-- The next statement of the driver of `p`. -/
def next (s : State ι) (p : ι) : Option (State ι) :=
  let pod := s.pods p
  match pod.stage with
  | .idle | .planned => none
  | .targeted =>
    match s.lock with
    | some _ => some (s.goto p .idle) -- ErrRebuildLockHeld
    | none => some ({ s with lock := some p }.goto p .locked)
  | .locked =>
    match pod.plan.registry with
    | some _ => some (s.goto p .checked)
    | none =>
      -- re-read under the lock, and create the row only if it is still absent
      let fresh := s.registry.getD (initViewRegistry pod.plan.current)
      some ({ s with registry := some fresh }.setPod p
        { pod with stage := .checked, plan := { pod.plan with registry := some fresh } })
  | .checked =>
    match pod.plan.registry.bind shadowCollection with
    | some _ => some ({ s with registry := abortSlotRebuild s.registry }.goto p .staleFlagCleared)
    | none => some (s.goto p .ready)
  | .staleFlagCleared =>
    match pod.plan.registry.bind shadowCollection with
    | some stale => some ((s.dropCollection stale).goto p .staleDropped)
    | none => none
  | .staleDropped => some ((s.refreshPod p).goto p .ready)
  | .ready => some ({ s with registry := beginRebuild s.registry }.goto p .processing)
  | .processing => some ((s.dropCollection pod.shadow).goto p .dropped)
  | .dropped => some ({ s with collections := pod.shadow :: s.collections }.goto p .provisioned)
  | .provisioned =>
    some ({ s with registry := beginSlotRebuild s.registry pod.shadow }.goto p .recorded)
  | .recorded => some ((s.refreshPod p).goto p .fenced)
  | .fenced => some (s.goto p .backfilled)
  | .backfilled => some (s.goto p .verified)
  | .verified => some ({ s with registry := flipSlot s.registry }.goto p .flipped)
  | .flipped => some ((s.refreshPod p).goto p .observed)
  | .observed => some ({ s with registry := endRebuild s.registry pod.plan.current }.goto p .ended)
  | .ended => some ({ s with lock := none }.goto p .idle)
  | .discarding =>
    some ({ s with registry := abortSlotRebuild s.registry }.goto p .discardFlagCleared)
  | .discardFlagCleared => some ((s.dropCollection pod.shadow).goto p .discardDropped)
  | .discardDropped => some ({ s.refreshPod p with lock := none }.goto p .idle)

/-- The current statement of the driver of `p` fails and the run goes on: a failed backfill or
verification discards the shadow, and the clean-up statements are best-effort. -/
def reject (s : State ι) (p : ι) : Option (State ι) :=
  match (s.pods p).stage with
  | .staleFlagCleared => some (s.goto p .staleDropped)
  | .fenced | .backfilled => some (s.goto p .discarding)
  | .discarding => some (s.goto p .discardFlagCleared)
  | .discardFlagCleared => some (s.goto p .discardDropped)
  | .discardDropped => some ({ s with lock := none }.goto p .idle)
  | _ => none

/-- The step function of the cluster, for the view `viewName`. -/
def step (viewName : String) (s : State ι) : Action ι → Option (State ι)
  | .refresh p => some (s.refreshPod p)
  | .plan p current =>
    if (s.pods p).stage = .idle then
      some (s.setPod p { s.pods p with
        stage := .planned, plan := { registry := s.registry, current } })
    else none
  | .execute p orphan =>
    if (s.pods p).stage = .planned then
      if orphan = "delete" ∨ orphan = "warn" then
        some (s.setPod p { s.pods p with
          stage := .targeted
          oldActive := active (s.pods p).cache viewName
          shadow := shadow (s.pods p).cache viewName })
      else some (s.goto p .idle)
    else none
  | .next p => next s p
  | .reject p => reject s p
  | .fail p => some ({ s with lock := if s.lock = some p then none else s.lock }.goto p .idle)
  | .abandon _ => some { s with registry := abortSlotRebuild s.registry }

/-- The cluster as a transition system. -/
def machine (viewName : String) : Machine (State ι) (Action ι) := ⟨step viewName⟩

/-- Before any rebuild: the lock is free, and every driver is idle and has planned nothing. -/
def Initial (s : State ι) : Prop :=
  s.lock = none ∧ ∀ p, (s.pods p).stage = .idle ∧ (s.pods p).plan.registry = none

/-! ### Mutual exclusion -/

/-- The driver is past the lock. -/
def Stage.holds : Stage → Bool
  | .idle | .planned | .targeted => false
  | _ => true

/-- The driver holds the lock and has not flipped the pointer. -/
def Stage.building : Stage → Bool
  | .idle | .planned | .targeted | .flipped | .observed | .ended => false
  | _ => true

/-- The driver may still drop the shadow of a run before it. -/
def Stage.takesOver : Stage → Bool
  | .locked | .checked | .staleFlagCleared => true
  | _ => false

/-- The shadow of a run before that the driver takes over: that of the row read at boot, and without
one that of the row it reads under the lock. -/
def Pod.staleShadow (registry : Option ViewRegistryRow) (pod : Pod) : Option String :=
  (pod.plan.registry.or registry).bind shadowCollection

/-- Only the holder of the lock is past it. -/
def Exclusive (s : State ι) : Prop := ∀ p, (s.pods p).stage.holds → s.lock = some p

section

variable (s : State ι) (p : ι) (st : Stage)
include s p st

@[simp] theorem State.goto_registry : (s.goto p st).registry = s.registry := rfl

@[simp] theorem State.goto_lock : (s.goto p st).lock = s.lock := rfl

theorem State.goto_pods : (s.goto p st).pods = update s.pods p { s.pods p with stage := st } := rfl

theorem State.refreshPod_goto_pods :
    ((s.refreshPod p).goto p st).pods =
      update s.pods p { s.pods p with cache := refresh s.registry, stage := st } := by
  simp [goto, refreshPod, setPod]

end

variable {pod : Pod} {s s' : State ι} {viewName : String} {p : ι}

/-- What a step of the driver `p` past the lock can do: only `p` moves, it keeps its target, gives
the lock up when it leaves, and keeps the active pointer unless it flips. -/
theorem next_of_holds (hp : (s.pods p).stage.holds) (h : next s p = some s' ∨ reject s p = some s')
    (viewName : String) :
    ∃ pod, s'.pods = update s.pods p pod ∧ pod.shadow = (s.pods p).shadow ∧
      s'.lock = (if pod.stage.holds then s.lock else none) ∧ pod.stage ≠ .targeted ∧
      (pod.stage.building → (s.pods p).stage.building ∧
        activeCollectionOf viewName s'.registry = activeCollectionOf viewName s.registry) ∧
      (pod.stage.takesOver → (s.pods p).stage.takesOver ∧
        pod.staleShadow s'.registry = (s.pods p).staleShadow s.registry) := by
  rcases h with h | h
  · cases hst : (s.pods p).stage <;> simp [hst, holds] at hp
    all_goals simp only [next, hst] at h
    case locked =>
      cases hr : (s.pods p).plan.registry with
      | none =>
        simp only [hr, some.injEq] at h
        subst h
        refine ⟨_, rfl, rfl, rfl, by simp, fun _ => ⟨rfl, ?_⟩, fun _ => ⟨rfl, ?_⟩⟩
        · cases s.registry <;> rfl
        · -- a row that is still absent is created without a shadow
          rw [Pod.staleShadow, Pod.staleShadow, hr]
          cases s.registry <;> rfl
      | some r =>
        simp only [hr, some.injEq] at h
        subst h
        refine ⟨_, rfl, rfl, rfl, by simp, fun _ => ⟨rfl, rfl⟩, fun _ => ⟨rfl, ?_⟩⟩
        simp [Pod.staleShadow, hr]
    case checked =>
      split at h <;> rename_i hs <;> cases h
      · refine ⟨_, rfl, rfl, rfl, by simp, fun _ => ⟨rfl, by simp⟩, fun _ => ⟨rfl, ?_⟩⟩
        obtain ⟨r, hr, -⟩ := Option.bind_eq_some_iff.1 hs
        simp [Pod.staleShadow, hr]
      · exact ⟨_, rfl, rfl, rfl, by simp, fun _ => ⟨rfl, rfl⟩, nofun⟩
    case staleFlagCleared =>
      split at h <;> cases h
      exact ⟨_, rfl, rfl, rfl, by simp, fun _ => ⟨rfl, rfl⟩, nofun⟩
    all_goals obtain rfl := some.inj h
    case staleDropped | recorded =>
      exact ⟨_, refreshPod_goto_pods s p _, rfl, rfl, by simp, fun _ => ⟨rfl, rfl⟩, nofun⟩
    case discardDropped | flipped =>
      exact ⟨_, refreshPod_goto_pods s p _, rfl, rfl, by simp, nofun, nofun⟩
    case verified | observed | ended => exact ⟨_, rfl, rfl, rfl, by simp, nofun, nofun⟩
    all_goals exact ⟨_, rfl, rfl, rfl, by simp, fun _ => ⟨rfl, by simp [dropCollection]⟩, nofun⟩
  · cases hst : (s.pods p).stage <;> simp [hst, holds] at hp
    all_goals simp [reject, hst] at h
    all_goals subst h
    all_goals exact ⟨_, rfl, rfl, rfl, by simp, fun _ => ⟨rfl, rfl⟩, nofun⟩

theorem next_of_not_holds (hp : ¬(s.pods p).stage.holds) (h : next s p = some s') :
    ((s.pods p).stage = .targeted ∧ s.lock = none ∧ s' = { s with lock := some p }.goto p .locked) ∨
    s' = s.goto p .idle := by
  cases hst : (s.pods p).stage <;> simp [hst, holds] at hp
  all_goals simp [next, hst] at h
  cases hl : s.lock with
  | none => simp only [hl, some.injEq] at h; exact .inl ⟨rfl, rfl, h.symm⟩
  | some q => simp only [hl, some.injEq] at h; exact .inr h.symm

theorem reject_of_not_holds (hp : ¬(s.pods p).stage.holds) (s' : State ι) :
    reject s p ≠ some s' := by
  cases hst : (s.pods p).stage <;> simp_all [holds, reject]

omit [DecidableEq ι] in
theorem not_holds_of_ne (hx : Exclusive s) {q : ι} (hp : (s.pods p).stage.holds) (hqp : q ≠ p) :
    (s.pods q).stage.holds = false := by
  by_contra hq
  have := (hx q (by simpa using hq)).symm.trans (hx p hp)
  exact hqp (some.inj this)

/-- Exclusion after a step that replaces one pod, from what the step does to the lock. -/
theorem Exclusive.of_update (hpods : s'.pods = update s.pods p pod)
    (hother : ∀ q, q ≠ p → (s.pods q).stage.holds → s'.lock = some q)
    (hself : pod.stage.holds → s'.lock = some p) : Exclusive s' := by
  rw [Exclusive, hpods]
  exact (forall_update_iff s.pods fun q pod => pod.stage.holds → s'.lock = some q).2 ⟨hself, hother⟩

variable {a : Action ι} {registry : Option ViewRegistryRow}

/-- What a step can do: a driver past the lock goes on, one takes the lock, a cache is read again, a
driver moves outside the lock, or the rebuild is abandoned. -/
theorem step_cases (h : (machine viewName).step s a = some s') :
    (∃ p, (s.pods p).stage.holds ∧ (next s p = some s' ∨ reject s p = some s')) ∨
    (∃ p, a = .next p ∧ (s.pods p).stage = .targeted ∧ s.lock = none ∧
      s' = { s with lock := some p }.goto p .locked) ∨
    (∃ p cache, s' = s.setPod p { s.pods p with cache }) ∨
    (∃ p pod lock, s' = { s with lock }.setPod p pod ∧
      (∀ q, q ≠ p → s.lock = some q → lock = some q) ∧ pod.stage.holds = false ∧
      (pod.stage = .targeted → pod.shadow = inactiveSlot viewName pod.oldActive) ∧
      (pod.plan = (s.pods p).plan ∨ pod.plan.registry = s.registry)) ∨
    (∃ p, a = .abandon p ∧ s' = { s with registry := abortSlotRebuild s.registry }) := by
  cases a with
  | refresh p => exact .inr (.inr (.inl ⟨p, _, (some.inj h).symm⟩))
  | plan p current =>
    simp only [machine, Rebuild.step, ite_none_right_eq_some, some.injEq] at h
    exact .inr (.inr (.inr (.inl ⟨p, _, _, h.2.symm, fun _ _ hq => hq, rfl, nofun, .inr rfl⟩)))
  | execute p orphan =>
    simp only [machine, Rebuild.step] at h
    split_ifs at h <;> obtain rfl := some.inj h
    · exact .inr (.inr (.inr (.inl ⟨p, _, _, rfl, fun _ _ hq => hq, rfl, fun _ => rfl, .inl rfl⟩)))
    · exact .inr (.inr (.inr (.inl ⟨p, _, _, rfl, fun _ _ hq => hq, rfl, nofun, .inl rfl⟩)))
  | next p =>
    by_cases hp : (s.pods p).stage.holds
    · exact .inl ⟨p, hp, .inl h⟩
    · obtain ⟨hst, hl, rfl⟩ | rfl := next_of_not_holds hp h
      · exact .inr (.inl ⟨p, rfl, hst, hl, rfl⟩)
      · exact .inr (.inr (.inr (.inl ⟨p, _, _, rfl, fun _ _ hq => hq, rfl, nofun, .inl rfl⟩)))
  | reject p =>
    by_cases hp : (s.pods p).stage.holds
    · exact .inl ⟨p, hp, .inr h⟩
    · exact absurd h (reject_of_not_holds hp s')
  | fail p =>
    refine .inr (.inr (.inr (.inl ⟨p, _, _, (some.inj h).symm, fun q hqp hq => ?_, rfl, nofun,
      .inl rfl⟩)))
    rw [hq, if_neg fun he => hqp (some.inj he)]
  | abandon p => exact .inr (.inr (.inr (.inr ⟨p, rfl, (some.inj h).symm⟩)))

/-- **Mutual exclusion**: every step keeps the lock's holder the only driver past it. -/
theorem Exclusive.step (hx : Exclusive s) (h : (machine viewName).step s a = some s') :
    Exclusive s' := by
  rcases step_cases h with ⟨p, hp, h⟩ | ⟨p, -, -, hl, rfl⟩ | ⟨p, cache, rfl⟩ |
    ⟨p, pod, lock, rfl, hlock, hst, -⟩ | ⟨p, -, rfl⟩
  · obtain ⟨pod, hpods, -, hlock, -⟩ := next_of_holds hp h viewName
    refine .of_update hpods (fun q hqp hq => ?_) fun hh => ?_
    · rw [not_holds_of_ne hx hp hqp] at hq; cases hq
    · rw [hlock, if_pos hh]; exact hx p hp
  · refine .of_update (goto_pods _ p _) (fun q _ hq => ?_) fun _ => rfl
    have := hx q hq
    rw [hl] at this; cases this
  · exact .of_update rfl (fun q _ => hx q) (hx p)
  · refine .of_update rfl (fun q hqp hq => hlock q hqp (hx q hq)) fun hh => ?_
    rw [hst] at hh; cases hh
  · exact hx

/-- **One rebuild at a time.**  From a free lock and idle pods, whatever the pods go on to do, only
the holder of the lock is past it. -/
theorem drivers_exclusive (as : List (Action ι)) :
    (machine viewName).Always Exclusive
      { s with lock := none, pods := fun p => { cache := (s.pods p).cache } } as :=
  Machine.always_of_invariant (fun _ _ _ _ hx => hx.step) nofun

/-! ### The active collection is not dropped -/

/-- The driver takes the lock while neither the slot it targets, computed from the active pointer it
read out of its cache, nor the shadow it takes over is the collection serving reads. -/
def targetInactive (viewName : String) (s : State ι) : Action ι → Bool
  | .next p =>
    !((s.pods p).stage = .targeted && s.lock.isNone) ||
      inactiveSlot viewName (s.pods p).oldActive ≠ activeCollectionOf viewName s.registry &&
        (s.pods p).staleShadow s.registry ≠ some (activeCollectionOf viewName s.registry)
  | _ => true

/-- The step executes `DropCollection` on the collection serving reads: on the target before the
build or after a failed one, or on the shadow that is taken over. -/
def dropsActive (viewName : String) (s : State ι) : Action ι → Bool
  | .next p =>
    match (s.pods p).stage with
    | .processing | .discardFlagCleared =>
      (s.pods p).shadow = activeCollectionOf viewName s.registry
    | .staleFlagCleared =>
      (s.pods p).plan.registry.bind shadowCollection =
        some (activeCollectionOf viewName s.registry)
    | _ => false
  | _ => false

/-- What a driver is still to drop is not the collection serving reads. -/
def Pod.Spares (viewName : String) (registry : Option ViewRegistryRow) (pod : Pod) : Prop :=
  (pod.stage.building → pod.shadow ≠ activeCollectionOf viewName registry) ∧
  (pod.stage.takesOver → pod.staleShadow registry ≠ some (activeCollectionOf viewName registry))

/-- The invariant behind `drops_spare_active`. -/
structure SparesActive (viewName : String) (s : State ι) : Prop where
  exclusive : Exclusive s
  target : ∀ p, (s.pods p).stage = .targeted →
    (s.pods p).shadow = inactiveSlot viewName (s.pods p).oldActive
  spared : ∀ p, (s.pods p).Spares viewName s.registry

theorem Stage.building_holds {st : Stage} (h : st.building) : st.holds := by
  cases st <;> simp_all [building, holds]

theorem Stage.takesOver_building {st : Stage} (h : st.takesOver) : st.building := by
  cases st <;> simp_all [takesOver, building]

theorem Pod.staleShadow_of_plan {registry : Option ViewRegistryRow} {stale : String}
    (h : pod.plan.registry.bind shadowCollection = some stale) :
    pod.staleShadow registry = some stale := by
  obtain ⟨row, hrow, hstale⟩ := Option.bind_eq_some_iff.1 h
  simp [staleShadow, hrow, hstale]

theorem Pod.staleShadow_abort (registry : Option ViewRegistryRow) (pod : Pod) :
    pod.staleShadow (abortSlotRebuild registry) = pod.plan.registry.bind shadowCollection := by
  cases hrow : pod.plan.registry <;> cases registry <;> simp [staleShadow, hrow, abortSlotRebuild]

theorem Pod.spares_of_not_holds {registry : Option ViewRegistryRow}
    (h : pod.stage.holds = false) : pod.Spares viewName registry := by
  have hb : ¬pod.stage.building := fun hb => by rw [building_holds hb] at h; cases h
  exact ⟨fun h => absurd h hb, fun h => absurd (takesOver_building h) hb⟩

/-- The invariant after a step that replaces one pod, from what the step does to that pod and to
the row. -/
theorem SparesActive.of_update (hi : SparesActive viewName s) (hx : Exclusive s')
    (hpods : s'.pods = update s.pods p pod)
    (hother : ∀ q, q ≠ p → (s.pods q).stage.holds → s'.registry = s.registry)
    (htarget : pod.stage = .targeted → pod.shadow = inactiveSlot viewName pod.oldActive)
    (hspared : pod.Spares viewName s'.registry) : SparesActive viewName s' := by
  refine ⟨hx, ?_, ?_⟩ <;> rw [hpods]
  · exact (forall_update_iff s.pods fun _ pod => pod.stage = _ →
      pod.shadow = inactiveSlot _ pod.oldActive).2 ⟨htarget, fun q _ => hi.target q⟩
  · refine (forall_update_iff s.pods fun _ pod => pod.Spares _ _).2 ⟨hspared, fun q hqp => ?_⟩
    by_cases hq : (s.pods q).stage.holds
    · rw [hother q hqp hq]
      exact hi.spared q
    · exact Pod.spares_of_not_holds (by simpa using hq)

theorem SparesActive.next_holds (hi : SparesActive viewName s) (hx : Exclusive s')
    (hp : (s.pods p).stage.holds) (h : next s p = some s' ∨ reject s p = some s') :
    SparesActive viewName s' := by
  obtain ⟨pod, hpods, hshadow, -, hst, hb, ht⟩ := next_of_holds hp h viewName
  refine hi.of_update hx hpods (fun q hqp hq => ?_) (fun ht => absurd ht hst)
    ⟨fun hbuild => ?_, fun htakes => ?_⟩
  · rw [not_holds_of_ne hi.exclusive hp hqp] at hq; cases hq
  · obtain ⟨hbuild, hact⟩ := hb hbuild
    rw [hshadow, hact]
    exact (hi.spared p).1 hbuild
  · obtain ⟨-, hact⟩ := hb (takesOver_building htakes)
    obtain ⟨htakes, hstale⟩ := ht htakes
    rw [hstale, hact]
    exact (hi.spared p).2 htakes

theorem SparesActive.step (hi : SparesActive viewName s) (hc : targetInactive viewName s a)
    (h : (machine viewName).step s a = some s') : SparesActive viewName s' := by
  have hx := hi.exclusive.step h
  rcases step_cases h with ⟨p, hp, h⟩ | ⟨p, rfl, hst, hl, rfl⟩ | ⟨p, cache, rfl⟩ |
    ⟨p, pod, lock, rfl, -, hst, htarget, -⟩ | ⟨p, -, rfl⟩
  · exact hi.next_holds hx hp h
  · -- the lock is taken while neither drop would meet the active collection
    refine hi.of_update hx (goto_pods _ p _) (fun _ _ _ => rfl) nofun ?_
    simp only [targetInactive, hst, hl, isNone_none, decide_true, Bool.and_self,
      Bool.not_true, Bool.false_or, Bool.and_eq_true, decide_eq_true_eq] at hc
    exact ⟨fun _ => by simpa [hi.target p hst] using hc.1, fun _ => hc.2⟩
  · exact hi.of_update hx rfl (fun _ _ _ => rfl) (hi.target p) (hi.spared p)
  · exact hi.of_update hx rfl (fun _ _ _ => rfl) htarget (Pod.spares_of_not_holds hst)
  · -- what is taken over is that of the row read at boot, or gone
    refine ⟨hx, hi.target, fun q => ⟨fun hq => by simpa using (hi.spared q).1 hq, fun hq => ?_⟩⟩
    rw [Pod.staleShadow_abort, activeCollectionOf_abortSlotRebuild]
    exact fun h => (hi.spared q).2 hq (Pod.staleShadow_of_plan h)

omit [DecidableEq ι] in
theorem SparesActive.initial (h : Initial s) : SparesActive viewName s where
  exclusive p hp := by rw [(h.2 p).1] at hp; cases hp
  target p hp := by rw [(h.2 p).1] at hp; cases hp
  spared p := Pod.spares_of_not_holds (by rw [(h.2 p).1]; rfl)

/-- **No driver drops the active collection.**  For any number of pods and any interleaving of
their steps, no driver executes `DropCollection` on the collection the registry names as serving
reads, provided each driver that takes the lock does so while neither the slot it targets nor the
shadow it takes over is that collection. -/
theorem drops_spare_active (viewName : String) {s₀ : State ι} (h₀ : Initial s₀)
    (as : List (Action ι))
    (hc : (machine viewName).Along (fun s a => targetInactive viewName s a) s₀ as) :
    (machine viewName).Along (fun s a => dropsActive viewName s a = false) s₀ as := by
  refine Machine.along_of_invariant (I := SparesActive viewName)
    (fun s a s' hi hc h => hi.step hc h) (fun s a hi _ => ?_) (.initial h₀) hc
  cases a with
  | next p =>
    obtain ⟨hbuild, htakes⟩ := hi.spared p
    simp only [dropsActive]
    split
    case h_1 hst => exact decide_eq_false (hbuild (by rw [hst]; rfl))
    case h_2 hst => exact decide_eq_false (hbuild (by rw [hst]; rfl))
    case h_3 hst =>
      exact decide_eq_false fun h => htakes (by rw [hst]; rfl) (Pod.staleShadow_of_plan h)
    case h_4 => rfl
  | _ => rfl

/-- A view served from its bare collection, with a registry row and idle pods. -/
def bareView : State (Fin 2) where
  registry := some ⟨1, "r1", "a1", "c1", none, none, .done, none, none⟩
  collections := ["orders"]
  pods := fun _ => {}

/-- The statements of one undisturbed run of `p`, from the lock to its release. -/
def wholeRun (p : Fin 2) : List (Action (Fin 2)) := replicate 14 (.next p)

/-- Pod 1 rebuilds, pod 0 refreshes its cache and rebuilds after it. -/
theorem drops_spare_active_bareView :
    (machine "orders").Along (fun s a => dropsActive "orders" s a = false) bareView
      ([.plan 1 ⟨2, "r2", "a2", "c2"⟩, .execute 1 "delete"] ++ wholeRun 1 ++
        [.refresh 0, .plan 0 ⟨3, "r3", "a3", "c3"⟩, .execute 0 "warn"] ++ wholeRun 0) :=
  drops_spare_active "orders" ⟨rfl, fun _ => ⟨rfl, rfl⟩⟩ _ (by decide)

/-- Pod 0 reads its target out of its cache, then pod 1 runs a whole rebuild and flips to that
very slot; pod 0 takes the lock and drops it. -/
theorem drops_active_after_flip :
    Initial bareView ∧
    ¬(machine "orders").Along (fun s a => dropsActive "orders" s a = false) bareView
      ([.plan 0 ⟨2, "r2", "a2", "c2"⟩, .execute 0 "delete", .plan 1 ⟨2, "r2", "a2", "c2"⟩,
        .execute 1 "delete"] ++ wholeRun 1 ++ replicate 5 (.next 0)) :=
  ⟨⟨rfl, fun _ => ⟨rfl, rfl⟩⟩, by decide⟩

/-! ### A rebuild recorded as done has switched the pointer -/

/-- The driver has recorded its slot and not flipped yet. -/
def Stage.recording : Stage → Bool
  | .recorded | .fenced | .backfilled | .verified => true
  | _ => false

/-- A writer abandons the rebuild only while no driver is between recording and flip. -/
def AbandonsOutside (s : State ι) : Action ι → Prop
  | .abandon _ => ∀ p, (s.pods p).stage.recording = false
  | _ => True

instance [Fintype ι] (s : State ι) : DecidablePred (AbandonsOutside s)
  | .abandon _ => inferInstanceAs (Decidable (∀ p, (s.pods p).stage.recording = false))
  | .refresh _ | .plan _ _ | .execute _ _ | .next _ | .reject _ | .fail _ => .isTrue trivial

/-- The step is an `EndRebuild` of a driver whose slot the registry does not name as active. -/
def endsUnswitched (s : State ι) : Action ι → Bool
  | .next p =>
    (s.pods p).stage = .observed &&
      s.registry.bind activeCollection ≠ some (s.pods p).shadow
  | _ => false

/-- What the registry holds for a driver at its stage. -/
def Pod.Tracks (registry : Option ViewRegistryRow) (pod : Pod) : Prop :=
  match pod.stage with
  | .idle | .planned | .targeted | .locked => pod.plan.registry.isSome → registry.isSome
  | .recorded | .fenced | .backfilled | .verified =>
    registry.bind shadowCollection = some pod.shadow
  | .flipped | .observed => registry.bind activeCollection = some pod.shadow
  | _ => registry.isSome

/-- The invariant behind `end_switched`. -/
structure Tracked (s : State ι) : Prop where
  exclusive : Exclusive s
  tracks : ∀ p, (s.pods p).Tracks s.registry

theorem Pod.tracks_of_not_holds (h : pod.stage.holds = false) :
    pod.Tracks registry ↔ (pod.plan.registry.isSome → registry.isSome) := by
  cases hst : pod.stage <;> simp_all [Pod.Tracks, holds]

theorem Pod.Tracks.row (h : pod.Tracks registry) : pod.plan.registry.isSome → registry.isSome := by
  intro hplan
  cases hst : pod.stage <;> simp only [Pod.Tracks, hst] at h
  all_goals first
    | exact h hplan
    | exact h
    | (obtain ⟨r, hr, -⟩ := bind_eq_some_iff.1 h; exact hr ▸ rfl)

/-- A step of the lock's holder keeps what the registry holds for it, and the row itself. -/
theorem next_tracks (hp : (s.pods p).stage.holds) (ht : (s.pods p).Tracks s.registry)
    (h : next s p = some s' ∨ reject s p = some s') :
    (s'.pods p).Tracks s'.registry ∧ (s.registry.isSome → s'.registry.isSome) := by
  rcases h with h | h
  · cases hst : (s.pods p).stage <;> simp [hst, holds] at hp
    all_goals simp only [next, hst] at h
    all_goals simp only [Pod.Tracks, hst] at ht
    case locked =>
      cases hr : (s.pods p).plan.registry with
      | none =>
        simp only [hr, some.injEq] at h
        subst h
        simp [Pod.Tracks, setPod]
      | some r =>
        simp only [hr, some.injEq] at h
        subst h
        simpa [Pod.Tracks, goto, setPod, hr] using ht
    case checked =>
      split at h <;> cases h <;>
        simpa [Pod.Tracks, goto, setPod, abortSlotRebuild] using ht
    case staleFlagCleared =>
      split at h <;> cases h
      simpa [Pod.Tracks, goto, setPod, dropCollection] using ht
    all_goals obtain rfl := some.inj h
    all_goals cases hreg : s.registry <;>
      simp_all [Pod.Tracks, goto, setPod, refreshPod, dropCollection,
        beginRebuild, beginSlotRebuild, flipSlot, abortSlotRebuild, endRebuild]
  · cases hst : (s.pods p).stage <;> simp [hst, holds] at hp
    all_goals simp [reject, hst] at h
    all_goals subst h
    all_goals cases hreg : s.registry <;> simp_all [Pod.Tracks, goto, setPod]

theorem Tracked.of_update (hi : Tracked s) (hx : Exclusive s')
    (hpods : s'.pods = update s.pods p pod)
    (hother : ∀ q, q ≠ p → (s.pods q).Tracks s.registry → (s.pods q).Tracks s'.registry)
    (hself : pod.Tracks s'.registry) : Tracked s' := by
  refine ⟨hx, ?_⟩
  rw [hpods]
  exact (forall_update_iff s.pods fun _ pod => pod.Tracks s'.registry).2
    ⟨hself, fun q hqp => hother q hqp (hi.tracks q)⟩

theorem Tracked.next_holds (hi : Tracked s) (hx : Exclusive s') (hp : (s.pods p).stage.holds)
    (h : next s p = some s' ∨ reject s p = some s') : Tracked s' := by
  obtain ⟨pod, hpods, -⟩ := next_of_holds hp h ""
  obtain ⟨ht, hrow⟩ := next_tracks hp (hi.tracks p) h
  refine hi.of_update hx hpods (fun q hqp hq => ?_) ?_
  · -- no other driver is past the lock, so it only asks for the row to exist
    have hnot := not_holds_of_ne hi.exclusive hp hqp
    rw [Pod.tracks_of_not_holds hnot] at hq ⊢
    exact fun hplan => hrow (hq hplan)
  · rwa [hpods, update_self] at ht

theorem Tracked.step (hi : Tracked s) (hc : AbandonsOutside s a)
    (h : (machine viewName).step s a = some s') : Tracked s' := by
  have hx := hi.exclusive.step h
  rcases step_cases h with ⟨p, hp, h⟩ | ⟨p, -, -, -, rfl⟩ | ⟨p, cache, rfl⟩ |
    ⟨p, pod, lock, rfl, -, hst, -, hplan⟩ | ⟨p, rfl, rfl⟩
  · exact hi.next_holds hx hp h
  · exact hi.of_update hx (goto_pods _ p _) (fun _ _ hq => hq) (hi.tracks p).row
  · exact hi.of_update hx rfl (fun _ _ hq => hq) (hi.tracks p)
  · refine hi.of_update hx rfl (fun _ _ hq => hq) ((Pod.tracks_of_not_holds hst).2 ?_)
    rcases hplan with hplan | hplan
    · exact hplan ▸ (hi.tracks p).row
    · exact hplan ▸ id
  · refine ⟨hx, fun q => ?_⟩
    have hq := hi.tracks q
    have hr : (s.pods q).stage.recording = false := hc q
    cases hst : (s.pods q).stage <;> cases hreg : s.registry <;>
      simp_all [Pod.Tracks, recording, abortSlotRebuild]

omit [DecidableEq ι] in
theorem Tracked.initial (h : Initial s) : Tracked s where
  exclusive p hp := by rw [(h.2 p).1] at hp; cases hp
  tracks p := by simp [Pod.Tracks, h.2 p]

/-- **A rebuild is recorded as done on its own slot.**  In every interleaving in which no
writer abandons the rebuild while a driver is between recording its slot and the flip, each
`EndRebuild` finds the registry naming the slot of its own run as active. -/
theorem end_switched (viewName : String) {s₀ : State ι} (h₀ : Initial s₀) (as : List (Action ι))
    (hc : (machine viewName).Along AbandonsOutside s₀ as) :
    (machine viewName).Along (fun s a => endsUnswitched s a = false) s₀ as := by
  refine Machine.along_of_invariant (I := Tracked)
    (fun s a s' hi hc h => hi.step hc h) (fun s a hi _ => ?_) (.initial h₀) hc
  cases a with
  | next p =>
    rw [← Bool.not_eq_true]
    intro h
    simp only [endsUnswitched, Bool.and_eq_true, decide_eq_true_eq] at h
    obtain ⟨hst, hne⟩ := h
    have := hi.tracks p
    simp only [Pod.Tracks, hst] at this
    exact hne this
  | _ => rfl

/-- A writer gives up on the shadow after the flip of pod 0; the run still ends on its slot. -/
theorem end_switched_bareView :
    (machine "orders").Along (fun s a => endsUnswitched s a = false) bareView
      ([.plan 0 ⟨2, "r2", "a2", "c2"⟩, .execute 0 "delete"] ++ replicate 11 (.next 0) ++
        [.abandon 1] ++ replicate 3 (.next 0)) :=
  end_switched "orders" ⟨rfl, fun _ => ⟨rfl, rfl⟩⟩ _ (by decide)

/-- A writer of pod 1 abandons the rebuild after pod 0 recorded its slot; the flip then affects no
row, and pod 0 still stores the new version and hashes. -/
theorem ends_unswitched_after_abandon :
    Initial bareView ∧
    ¬(machine "orders").Along (fun s a => endsUnswitched s a = false) bareView
      ([.plan 0 ⟨2, "r2", "a2", "c2"⟩, .execute 0 "delete"] ++ replicate 8 (.next 0) ++
        [.refresh 1, .abandon 1] ++ replicate 6 (.next 0)) :=
  ⟨⟨rfl, fun _ => ⟨rfl, rfl⟩⟩, by decide⟩

end Omnicore.Query.Rebuild
