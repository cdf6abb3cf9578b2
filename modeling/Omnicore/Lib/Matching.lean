import Mathlib.Data.List.Perm.Basic
import Mathlib.Data.List.Pairwise

/-!
# Greedy matching

The elements of a list take the elements of another that answer to them, from left to right: each
takes the first one left that answers, and the others that answer to it are passed over.

## Main definitions

* `matchFirst` : the list with what each element has taken, and what is left.

## Main results

* `matchFirst_perm` : where no two elements answer to one, nothing is passed over.
-/

variable {α β γ : Type*}

/-- Each element of the first list with the first element left of the second that answers to it, and
the elements that answer to none. -/
def matchFirst (same : β → α → Bool) : List β → List α → List (β × Option α) × List α
  | [], items => ([], items)
  | b :: bs, items =>
    let m := matchFirst same bs (items.filter fun x => !same b x)
    ((b, items.find? (same b)) :: m.1, m.2)

section

variable {same : β → α → Bool}

theorem matchFirst_fst (bs : List β) (items : List α) :
    (matchFirst same bs items).1.map Prod.fst = bs := by
  induction bs generalizing items with
  | nil => rfl
  | cons b bs ih => exact congrArg (b :: ·) (ih _)

theorem matchFirst_map (f : γ → β) (cs : List γ) (items : List α) :
    matchFirst same (cs.map f) items =
      ((matchFirst (fun c => same (f c)) cs items).1.map fun p => (f p.1, p.2),
        (matchFirst (fun c => same (f c)) cs items).2) := by
  induction cs generalizing items with
  | nil => rfl
  | cons c cs ih => simp [matchFirst, ih]

/-- Where at most one element answers, taking it out leaves the others. -/
theorem perm_cons_filter {p : α → Bool} {items : List α} {x : α}
    (hone : items.Pairwise fun y z => ¬(p y ∧ p z)) (h : items.find? p = some x) :
    items.Perm (x :: items.filter fun y => !p y) := by
  obtain ⟨hx, before, after, rfl, hbefore⟩ := List.find?_eq_some_iff_append.1 h
  have hafter : ∀ y ∈ after, !p y := by
    intro y hy
    have := (List.pairwise_cons.1 (List.pairwise_append.1 hone).2.1).1 y hy
    simpa [hx] using this
  rw [List.filter_append, List.filter_cons, List.filter_eq_self.2 hbefore,
    List.filter_eq_self.2 hafter, hx]
  exact List.perm_middle

/-- **Nothing is lost** where no two elements answer to one. -/
theorem matchFirst_perm {bs : List β} {items : List α}
    (hone : ∀ b ∈ bs, items.Pairwise fun y z => ¬(same b y ∧ same b z)) :
    items.Perm
      ((matchFirst same bs items).1.filterMap Prod.snd ++ (matchFirst same bs items).2) := by
  induction bs generalizing items with
  | nil => exact .refl _
  | cons b bs ih =>
    obtain ⟨hb, hbs⟩ := List.forall_mem_cons.1 hone
    have hrest := ih fun b' hb' => (hbs b' hb').filter fun x => !same b x
    cases hfind : items.find? (same b) with
    | some x =>
      rw [matchFirst, hfind]
      exact (perm_cons_filter hb hfind).trans (hrest.cons x)
    | none =>
      rw [matchFirst, hfind]
      have hnone : (items.filter fun x => !same b x) = items :=
        List.filter_eq_self.2 fun x hx => by simpa using List.find?_eq_none.1 hfind x hx
      rw [hnone] at hrest ⊢
      exact hrest

end
