import Mathlib.Data.List.Forall2

/-!
# Loops, and computations that may fail

Inversion of sequenced computations in `Except`, and the rules of their traversals of lists.

## Main results

* `List.foldl_frame` : what every iteration of a loop leaves alone, the loop leaves alone.
* `Except.bind_ok` : a sequence succeeds when both of its parts do.
* `Except.foldlM_invariant` : an invariant preserved by every successful iteration of a loop holds
  when the loop succeeds.
-/

/-- What every iteration leaves alone, the loop leaves alone. -/
theorem List.foldl_frame {σ α τ : Type*} (g : σ → τ) {f : σ → α → σ}
    (h : ∀ s a, g (f s a) = g s) (l : List α) (s : σ) : g (l.foldl f s) = g s := by
  induction l generalizing s with
  | nil => rfl
  | cons a l ih => rw [List.foldl_cons, ih, h]

theorem List.mem_concat {α : Type*} {a x : α} {l : List α} : a ∈ l ++ [x] ↔ a ∈ l ∨ a = x := by
  rw [mem_append, mem_singleton]

namespace Except

open List

variable {ε α β σ : Type}

variable {xs : List α} {f : α → Except ε β}

theorem bind_ok {x : Except ε α} {b : β} : x >>= f = .ok b ↔ ∃ a, x = .ok a ∧ f a = .ok b := by
  cases x with
  | error e => exact ⟨nofun, fun ⟨_, h, _⟩ => nomatch h⟩
  | ok a => exact ⟨fun h => ⟨a, rfl, h⟩, fun ⟨_, h, hf⟩ => by cases h; exact hf⟩

theorem pure_ok {a b : α} : (pure a : Except ε α) = .ok b ↔ a = b :=
  ⟨fun h => by cases h; rfl, fun h => h ▸ rfl⟩

/-- A computation that is evaluated up to a condition `Q`, and what follows from the two. -/
theorem exists_ok {x : Except ε α} {P : α → Prop} (Q : α → Prop) (hQ : ∃ a ∈ x.toOption, Q a)
    (h : ∀ a, x = .ok a → Q a → P a) : ∃ a, x = .ok a ∧ P a := by
  cases x with
  | error e => simp [Except.toOption] at hQ
  | ok a =>
    obtain ⟨_, ⟨⟩, hq⟩ := hQ
    exact ⟨a, rfl, h a rfl hq⟩

/-- A loop whose successful iterations preserve an invariant preserves it. -/
theorem foldlM_invariant {P : σ → Prop} {f : σ → α → Except ε σ} {l : List α}
    (hstep : ∀ s, ∀ a ∈ l, ∀ s', P s → f s a = .ok s' → P s') {s s' : σ} (h0 : P s)
    (h : l.foldlM f s = .ok s') : P s' := by
  induction l generalizing s with
  | nil => rw [foldlM_nil, pure_ok] at h; exact h ▸ h0
  | cons a l ih =>
    rw [foldlM_cons, bind_ok] at h
    obtain ⟨t, ht, h⟩ := h
    exact ih (fun s b hb => hstep s b (mem_cons_of_mem _ hb)) (hstep s a mem_cons_self t h0 ht) h

/-- Keep the elements on which the test succeeds; fail when a test fails to evaluate. -/
def filterList (p : α → Except ε Bool) : List α → Except ε (List α)
  | [] => .ok []
  | x :: xs => do
    let keep ← p x
    let xs ← filterList p xs
    return if keep then x :: xs else xs

/-- Apply a function that may fail to every element. -/
def mapList (f : α → Except ε β) : List α → Except ε (List β)
  | [] => .ok []
  | x :: xs => do
    let y ← f x
    let ys ← mapList f xs
    return y :: ys

theorem filterList_ok {p : α → Except ε Bool} {q : α → Bool} (h : ∀ x ∈ xs, p x = .ok (q x)) :
    filterList p xs = .ok (xs.filter q) := by
  induction xs with
  | nil => rfl
  | cons x xs ih =>
    have hx := h x mem_cons_self
    have hxs := ih fun y hy => h y (mem_cons_of_mem _ hy)
    rw [filterList, hx, hxs, filter_cons]
    rfl

theorem mapList_ok {g : α → β} (h : ∀ x ∈ xs, f x = .ok (g x)) : mapList f xs = .ok (xs.map g) := by
  induction xs with
  | nil => rfl
  | cons x xs ih =>
    have hx := h x mem_cons_self
    have hxs := ih fun y hy => h y (mem_cons_of_mem _ hy)
    rw [mapList, hx, hxs]
    rfl

variable {ys : List β}

/-- The results of a traversal that succeeds. -/
theorem forall₂_of_mapList (h : mapList f xs = .ok ys) :
    List.Forall₂ (fun x y => f x = .ok y) xs ys := by
  induction xs generalizing ys with
  | nil => cases h; exact .nil
  | cons x xs ih =>
    rw [mapList, bind_ok] at h
    obtain ⟨y, hy, h⟩ := h
    rw [bind_ok] at h
    obtain ⟨zs, hzs, h⟩ := h
    rw [pure_ok] at h
    exact h ▸ .cons hy (ih hzs)

theorem mapList_congr {g : α → Except ε β} (h : ∀ x ∈ xs, f x = g x) :
    mapList f xs = mapList g xs := by
  induction xs with
  | nil => rfl
  | cons x xs ih =>
    rw [mapList, mapList, h x mem_cons_self, ih fun y hy => h y (mem_cons_of_mem _ hy)]

/-- A traversal succeeds when every step does. -/
theorem mapList_succeeds : (∃ ys, mapList f xs = .ok ys) ↔ ∀ x ∈ xs, ∃ y, f x = .ok y := by
  induction xs with
  | nil => exact ⟨fun _ => nofun, fun _ => ⟨[], rfl⟩⟩
  | cons x xs ih =>
    rw [forall_mem_cons, ← ih]
    simp only [mapList, bind_ok, pure_ok]
    constructor
    · rintro ⟨_, y, hy, ys, hys, rfl⟩
      exact ⟨⟨y, hy⟩, ys, hys⟩
    · rintro ⟨⟨y, hy⟩, ys, hys⟩
      exact ⟨y :: ys, y, hy, ys, hys, rfl⟩

/-- The results of a traversal are those of its steps. -/
theorem mem_mapList (h : mapList f xs = .ok ys) {y : β} :
    y ∈ ys ↔ ∃ x ∈ xs, f x = .ok y := by
  have h2 := forall₂_of_mapList h
  clear h
  induction h2 with
  | nil => simp
  | cons hy _ ih =>
    rw [mem_cons, exists_mem_cons_iff, hy, Except.ok.injEq]
    exact or_congr eq_comm ih

/-- A traversal succeeds with results of some kind when every step does. -/
theorem mapList_all {P : β → Prop} :
    (∃ ys, mapList f xs = .ok ys ∧ ∀ y ∈ ys, P y) ↔ ∀ x ∈ xs, ∃ y, f x = .ok y ∧ P y := by
  constructor
  · rintro ⟨ys, h, hall⟩ x hx
    obtain ⟨y, hy⟩ := mapList_succeeds.1 ⟨ys, h⟩ x hx
    exact ⟨y, hy, hall y ((mem_mapList h).2 ⟨x, hx, hy⟩)⟩
  · intro hall
    obtain ⟨ys, h⟩ := mapList_succeeds.2 fun x hx => (hall x hx).imp fun _ hy => hy.1
    refine ⟨ys, h, fun y hy => ?_⟩
    obtain ⟨x, hx, hxy⟩ := (mem_mapList h).1 hy
    obtain ⟨y', hy', hP⟩ := hall x hx
    exact Except.ok.inj (hxy.symm.trans hy') ▸ hP

/-- What holds of all the results of a traversal, in terms of the elements. -/
theorem mapList_forall {P : α → Prop} {Q : β → Prop} (h : mapList f xs = .ok ys)
    (hiff : ∀ x ∈ xs, ∀ y ∈ ys, f x = .ok y → (Q y ↔ P x)) : (∀ y ∈ ys, Q y) ↔ ∀ x ∈ xs, P x := by
  constructor
  · intro hall x hx
    obtain ⟨y, hy⟩ := mapList_succeeds.1 ⟨ys, h⟩ x hx
    have hmem := (mem_mapList h).2 ⟨x, hx, hy⟩
    exact (hiff x hx y hmem hy).1 (hall y hmem)
  · intro hall y hmem
    obtain ⟨x, hx, hy⟩ := (mem_mapList h).1 hmem
    exact (hiff x hx y hmem hy).2 (hall x hx)

end Except
