import Mathlib.Data.List.Basic

/-!
# Walks by pages

A listing is read by pages of a fixed length.  A page that is not the last leaves a mark made from
its last element, and the next page starts from what the mark finds.

## Main definitions

* `walk` : the elements of all the pages, one after the other.

## Main results

* `walk_complete` : when every mark finds what follows its element, the walk returns the listing.
* `head_of_walk` : when it does, the mark of an element finds first the one that follows.
-/

namespace Keyset

open List Option

variable {α μ : Type*}

/-- Read pages until one is the last.  A walk that does not end within the fuel returns nothing. -/
def walk (found : Option μ → List α) (mark : α → μ) (limit : ℕ) : ℕ → Option μ → Option (List α)
  | 0, _ => none
  | fuel + 1, m =>
    let items := (found m).take limit
    if limit < (found m).length then
      (walk found mark limit fuel (items.getLast?.map mark)).map (items ++ ·)
    else some items

variable {found : Option μ → List α} {mark : α → μ} {limit : ℕ}

/-- A walk from a mark returns what the mark finds, when every mark finds what follows. -/
theorem walk_from {xs : List α} (hlimit : 0 < limit)
    (hmark : ∀ pre d rest, xs = pre ++ d :: rest → rest ≠ [] → found (some (mark d)) = rest) :
    ∀ {fuel : ℕ} {m : Option μ} {rest : List α}, found m = rest → (∃ pre, xs = pre ++ rest) →
      rest.length < fuel → walk found mark limit fuel m = some rest := by
  intro fuel
  induction fuel with
  | zero => exact fun _ _ h => absurd h (Nat.not_lt_zero _)
  | succ fuel ih =>
    rintro m rest hfound ⟨pre, hxs⟩ hfuel
    rw [walk, hfound]
    by_cases hmore : limit < rest.length
    · -- the page is not the last: its last element leaves the mark
      have hlen : (rest.take limit).length = limit := length_take_of_le (Nat.le_of_lt hmore)
      have hne : rest.take limit ≠ [] := ne_nil_of_length_pos (by rwa [hlen])
      obtain ⟨init, d, htake⟩ := (eq_nil_or_concat (rest.take limit)).resolve_left hne
      rw [concat_eq_append] at htake
      have hdrop : rest.drop limit ≠ [] := by
        rw [ne_eq, drop_eq_nil_iff]
        exact Nat.not_le.2 hmore
      have hrest : rest = init ++ d :: rest.drop limit := by
        rw [append_cons, ← htake, take_append_drop]
      have hnext : found (some (mark d)) = rest.drop limit :=
        hmark (pre ++ init) d _ (by rw [append_assoc, ← hrest, hxs]) hdrop
      have hpre : ∃ pre', xs = pre' ++ rest.drop limit :=
        ⟨pre ++ rest.take limit, by rw [append_assoc, take_append_drop, hxs]⟩
      have hlast : (rest.take limit).getLast? = some d := by simp [htake]
      have hshort : (rest.drop limit).length < fuel := by
        rw [length_drop]
        omega
      rw [if_pos hmore, hlast, map_some, ih hnext hpre hshort, map_some, take_append_drop]
    · rw [if_neg hmore, take_of_length_le (Nat.not_lt.1 hmore)]

/-- **A complete walk.**  When every mark finds what follows its element, the walk returns the
listing. -/
theorem walk_complete {xs : List α} (hlimit : 0 < limit) (hnone : found none = xs)
    (hmark : ∀ pre d rest, xs = pre ++ d :: rest → rest ≠ [] → found (some (mark d)) = rest) :
    ∃ fuel, walk found mark limit fuel none = some xs :=
  ⟨xs.length + 1, walk_from hlimit hmark hnone ⟨[], rfl⟩ (Nat.lt_succ_self _)⟩

/-- A walk starts with what its mark finds first. -/
theorem head_walk (hlimit : 0 < limit) {fuel : ℕ} {m : Option μ} {ys : List α}
    (h : walk found mark limit fuel m = some ys) : ys.head? = (found m).head? := by
  cases fuel with
  | zero => cases h
  | succ fuel =>
    have htake : ((found m).take limit).head? = (found m).head? := by
      rw [head?_take, if_neg (Nat.pos_iff_ne_zero.1 hlimit)]
    rw [walk] at h
    split_ifs at h with hmore
    · obtain ⟨zs, -, rfl⟩ := map_eq_some_iff.1 h
      rw [head?_append, htake]
      have hne : found m ≠ [] := ne_nil_of_length_pos (Nat.zero_lt_of_lt hmore)
      exact or_of_isSome (isSome_head?.2 hne)
    · rw [← some.inj h, htake]

/-- When a walk returns the listing, the mark of the last element but one finds the last first. -/
theorem head_of_walk {init : List α} {d y : α} (hnone : found none = init ++ [d, y]) {fuel : ℕ}
    (h : walk found mark (init.length + 1) fuel none = some (init ++ [d, y])) :
    (found (some (mark d))).head? = some y := by
  cases fuel with
  | zero => cases h
  | succ fuel =>
    have htake : (init ++ [d, y]).take (init.length + 1) = init ++ [d] := by
      simp [take_append, take_of_length_le (Nat.le_succ init.length)]
    rw [walk, hnone, htake, if_pos (by simp)] at h
    obtain ⟨zs, hzs, h⟩ := map_eq_some_iff.1 h
    have hz : zs = [y] := by
      have h' : (init ++ [d]) ++ zs = (init ++ [d]) ++ [y] := by simpa using h
      exact append_cancel_left h'
    rw [hz] at hzs
    have hlast : (init ++ [d]).getLast? = some d := by simp
    rw [hlast, map_some] at hzs
    rw [← head_walk (Nat.succ_pos _) hzs]
    rfl

end Keyset
