import Mathlib.Logic.Relation

/-!
# Executable transition systems

A `Machine` is a deterministic transition function on states and actions: nondeterminism of the
modelled system (an interleaving, a crash, a scheduling decision) is the choice of the action.
Runs are lists of actions, so a concrete execution is evaluated and every execution is covered by
quantifying over lists.

## Main definitions

* `Machine.run s as` : the state after the actions `as`, or `none` when one of them is disabled.
* `Machine.Along C s as` : every action taken along the run meets the condition `C`, judged in the
  state in which it is taken.
* `Machine.Always I s as` : every state visited by the run satisfies `I`.

## Main results

* `Machine.run_invariant` : an invariant preserved by every step that meets `C` holds at the end
  of every run along which `C` holds.
* `Machine.along_of_invariant` : ... and whatever the invariant implies of a step holds along it.
* `Machine.always_iff_along` : when each step from a good state leads to a good state exactly when
  it meets `C`, a run stays good exactly when `C` holds along it.
-/

/-- A transition system whose steps are computed: `step s a` is the state after the action `a`,
or `none` when `a` cannot be taken in `s`. -/
structure Machine (S A : Type*) where
  /-- The transition function. -/
  step : S → A → Option S

namespace Machine

open List Option

variable {S A : Type*} (M : Machine S A)

/-- The state after a list of actions. -/
def run : S → List A → Option S
  | s, [] => some s
  | s, a :: as => (M.step s a).bind fun s' => run s' as

/-- Every action taken along the run meets `C` in the state in which it is taken. -/
def Along (C : S → A → Prop) : S → List A → Prop
  | _, [] => True
  | s, a :: as => C s a ∧ match M.step s a with
    | some s' => Along C s' as
    | none => True

/-- Every state visited along the run satisfies `I`. -/
def Always (I : S → Prop) : S → List A → Prop
  | s, [] => I s
  | s, a :: as => I s ∧ match M.step s a with
    | some s' => Always I s' as
    | none => True

/-- `s` is reached from `s₀` by some run. -/
def Reachable (s₀ s : S) : Prop := ∃ as, M.run s₀ as = some s

instance decidableAlong (C : S → A → Prop) [∀ s a, Decidable (C s a)] :
    ∀ s as, Decidable (M.Along C s as)
  | _, [] => .isTrue trivial
  | s, a :: as => by
    unfold Along
    exact @instDecidableAnd _ _ inferInstance (match M.step s a with
      | some s' => decidableAlong C s' as
      | none => .isTrue trivial)

instance decidableAlways (I : S → Prop) [∀ s, Decidable (I s)] :
    ∀ s as, Decidable (M.Always I s as)
  | s, [] => inferInstanceAs (Decidable (I s))
  | s, a :: as => by
    unfold Always
    exact @instDecidableAnd _ _ inferInstance (match M.step s a with
      | some s' => decidableAlways I s' as
      | none => .isTrue trivial)

variable {M}

@[simp] theorem run_nil (s : S) : M.run s [] = some s := rfl

@[simp] theorem run_cons (s : S) (a : A) (as : List A) :
    M.run s (a :: as) = (M.step s a).bind fun s' => M.run s' as := rfl

variable {s s' : S} {as : List A} {C D : S → A → Prop} {I : S → Prop}

/-- A run that is evaluated up to a condition `Q`, and what follows from the two. -/
theorem exists_run {P : S → Prop} (Q : S → Prop) (hQ : ∃ s' ∈ M.run s as, Q s')
    (h : ∀ s', M.run s as = some s' → Q s' → P s') : ∃ s', M.run s as = some s' ∧ P s' := by
  obtain ⟨s', hs', hq⟩ := hQ
  exact ⟨s', hs', h s' hs' hq⟩

theorem run_append (s : S) (as bs : List A) :
    M.run s (as ++ bs) = (M.run s as).bind fun s' => M.run s' bs := by
  induction as generalizing s with
  | nil => rfl
  | cons a as ih =>
    simp only [cons_append, run_cons, bind_assoc]
    congr 1; funext s'; exact ih s'

theorem along_cons {a : A} (h : M.step s a = some s') :
    M.Along C s (a :: as) ↔ C s a ∧ M.Along C s' as := by
  simp [Along, h]

theorem along_append {bs : List A} :
    M.Along C s (as ++ bs) ↔ M.Along C s as ∧ ∀ s', M.run s as = some s' → M.Along C s' bs := by
  induction as generalizing s with
  | nil => exact ⟨fun h => ⟨trivial, fun s' hs => some.inj hs ▸ h⟩, fun h => h.2 s rfl⟩
  | cons a as ih =>
    cases hs : M.step s a with
    | none => simp [Along, hs]
    | some t =>
      rw [cons_append, along_cons hs, along_cons hs, ih, run_cons, hs, bind_some, and_assoc]

theorem always_cons {a : A} (h : M.step s a = some s') :
    M.Always I s (a :: as) ↔ I s ∧ M.Always I s' as := by
  simp [Always, h]

theorem Always.head (h : M.Always I s as) : I s := by
  cases as with
  | nil => exact h
  | cons a as => exact h.1

theorem Along.mono (hCD : ∀ s a, C s a → D s a) (h : M.Along C s as) : M.Along D s as := by
  induction as generalizing s with
  | nil => trivial
  | cons a as ih =>
    refine ⟨hCD _ _ h.1, ?_⟩
    cases hs : M.step s a with
    | none => trivial
    | some s' => exact ih ((along_cons hs).1 h).2

theorem Along.and (hC : M.Along C s as) (hD : M.Along D s as) :
    M.Along (fun s a => C s a ∧ D s a) s as := by
  induction as generalizing s with
  | nil => trivial
  | cons a as ih =>
    refine ⟨⟨hC.1, hD.1⟩, ?_⟩
    cases hs : M.step s a with
    | none => trivial
    | some s' => exact ih ((along_cons hs).1 hC).2 ((along_cons hs).1 hD).2

theorem along_of_forall {P : A → Prop} (h : ∀ a ∈ as, P a) (s : S) :
    M.Along (fun _ a => P a) s as := by
  induction as generalizing s with
  | nil => trivial
  | cons a as ih =>
    refine ⟨h a mem_cons_self, ?_⟩
    cases M.step s a with
    | none => trivial
    | some s' => exact ih (fun b hb => h b (mem_cons_of_mem _ hb)) s'

theorem Along.and_forall {P : A → Prop} (h : M.Along C s as) (hP : ∀ a ∈ as, P a) :
    M.Along (fun s a => C s a ∧ P a) s as :=
  h.and (along_of_forall hP s)

/-- **Run rule.** An invariant preserved by every step that meets `C` holds at the end of every
run along which `C` holds. -/
theorem run_invariant (hstep : ∀ s a s', I s → C s a → M.step s a = some s' → I s') (h0 : I s)
    (hC : M.Along C s as) (hrun : M.run s as = some s') : I s' := by
  induction as generalizing s with
  | nil => exact some.inj hrun ▸ h0
  | cons a as ih =>
    rw [run_cons, bind_eq_some_iff] at hrun
    obtain ⟨t, ht, hrun⟩ := hrun
    obtain ⟨hCa, hC⟩ := (along_cons ht).1 hC
    exact ih (hstep _ _ _ h0 hCa ht) hC hrun

/-- An invariant preserved by every step holds in every reachable state. -/
theorem Reachable.invariant (hstep : ∀ s a s', I s → M.step s a = some s' → I s') {s0 s : S}
    (h0 : I s0) (h : M.Reachable s0 s) : I s := by
  obtain ⟨as, h⟩ := h
  exact run_invariant (fun s a s' hi _ hs => hstep s a s' hi hs) h0
    (along_of_forall (P := fun _ => True) (fun _ _ => trivial) s0) h

/-- What an invariant implies of every step it allows holds along the run. -/
theorem along_of_invariant {P : S → A → Prop}
    (hstep : ∀ s a s', I s → C s a → M.step s a = some s' → I s') (hP : ∀ s a, I s → C s a → P s a)
    (h0 : I s) (hC : M.Along C s as) : M.Along P s as := by
  induction as generalizing s with
  | nil => trivial
  | cons a as ih =>
    refine ⟨hP _ _ h0 hC.1, ?_⟩
    cases hs : M.step s a with
    | none => trivial
    | some s' =>
      obtain ⟨hCa, hC⟩ := (along_cons hs).1 hC
      exact ih (hstep _ _ _ h0 hCa hs) hC

/-- An invariant preserved by every action of a run holds in every state it visits. -/
theorem always_of_invariant (hstep : ∀ a ∈ as, ∀ s s', I s → M.step s a = some s' → I s')
    (h0 : I s) : M.Always I s as := by
  induction as generalizing s with
  | nil => exact h0
  | cons a as ih =>
    refine ⟨h0, ?_⟩
    cases hs : M.step s a with
    | none => trivial
    | some s' =>
      exact ih (fun b hb => hstep b (mem_cons_of_mem _ hb)) (hstep a mem_cons_self s s' h0 hs)

/-- Let `K` be preserved by every step.  When each step from a good state ends in a good state
exactly if it meets `C`, a run from a good state stays good exactly if `C` holds along it. -/
theorem always_iff_along {K : S → Prop}
    (hstep : ∀ a ∈ as, ∀ s, K s → I s → ∃ s', M.step s a = some s' ∧ K s' ∧ (I s' ↔ C s a))
    (hK : K s) (h0 : I s) : M.Always I s as ↔ M.Along C s as := by
  induction as generalizing s with
  | nil => exact ⟨fun _ => trivial, fun _ => h0⟩
  | cons a as ih =>
    obtain ⟨s', hs, hK', hiff⟩ := hstep a mem_cons_self s hK h0
    have ih := ih (s := s') (fun b hb => hstep b (mem_cons_of_mem _ hb)) hK'
    rw [along_cons hs, always_cons hs]
    constructor
    · rintro ⟨-, h⟩; exact ⟨hiff.1 h.head, (ih h.head).1 h⟩
    · rintro ⟨hC, h⟩; exact ⟨h0, (ih (hiff.2 hC)).2 h⟩

/-- The same for a run that is known to go through: a step need not be enabled in every good
state. -/
theorem always_iff_along_of_run {K : S → Prop}
    (hstep : ∀ a ∈ as, ∀ s s', K s → I s → M.step s a = some s' → K s' ∧ (I s' ↔ C s a)) (hK : K s)
    (h0 : I s) (hrun : (M.run s as).isSome) : M.Always I s as ↔ M.Along C s as := by
  induction as generalizing s with
  | nil => exact ⟨fun _ => trivial, fun _ => h0⟩
  | cons a as ih =>
    cases hs : M.step s a with
    | none => simp [hs] at hrun
    | some s' =>
      obtain ⟨hK', hiff⟩ := hstep a mem_cons_self s s' hK h0 hs
      have ih := ih (s := s') (fun b hb => hstep b (mem_cons_of_mem _ hb)) hK'
      have hrun : (M.run s' as).isSome := by simpa [hs] using hrun
      rw [along_cons hs, always_cons hs]
      constructor
      · rintro ⟨-, h⟩; exact ⟨hiff.1 h.head, (ih h.head hrun).1 h⟩
      · rintro ⟨hC, h⟩; exact ⟨h0, (ih (hiff.2 hC) hrun).2 h⟩

end Machine
