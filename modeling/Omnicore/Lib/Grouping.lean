import Mathlib.Data.List.Dedup
import Mathlib.Data.List.Induction
import Mathlib.Data.PNat.Basic
import Omnicore.Lib.AssocMap

/-!
# Chunked and grouped reads

A lookup of many keys is cut into chunks of bounded size and its answers are grouped by key.  When
the keys are distinct, the group of a key is what the one chunk that holds the key answered for it:
chunking and grouping are invisible to a reader who asks key by key.

## Main results

* `flatten_chunks` : the chunks are a cut of the list.
* `group_groupBy` : the group of a key is the sublist of its elements.
* `exists_chunk_of_mem` : the answers for a key come from one chunk.
-/

namespace Grouping

open List

section Chunks

variable {α β : Type*}

/-- Cut a list into chunks of `n` elements, the last one possibly shorter. -/
def chunks (n : ℕ+) : List α → List (List α)
  | [] => []
  | a :: l => (a :: l).take n :: chunks n ((a :: l).drop n)
termination_by l => l.length
decreasing_by
  have := n.pos
  simp only [length_drop, length_cons]
  omega

/-- The chunks are a cut of the list. -/
@[simp] theorem flatten_chunks (n : ℕ+) (l : List α) : (chunks n l).flatten = l := by
  fun_induction chunks n l with
  | case1 => rfl
  | case2 a l ih => rw [flatten_cons, ih, take_append_drop]

/-- The distinct elements of a list, in the order of their first occurrences. -/
def uniq [DecidableEq α] (l : List α) : List α := l.reverse.dedup.reverse

theorem nodup_uniq [DecidableEq α] (l : List α) : (uniq l).Nodup := nodup_reverse.2 (nodup_dedup _)

@[simp] theorem mem_uniq [DecidableEq α] {l : List α} {a : α} : a ∈ uniq l ↔ a ∈ l := by
  simp [uniq]

/-- **The answers for a key come from one chunk.**  The other chunks, which do not hold the key,
answer nothing for it. -/
theorem exists_chunk_of_mem {cs : List (List α)} (hcs : cs.flatten.Nodup) {k : α}
    (hk : k ∈ cs.flatten) (ask : List α → List β) (p : β → Bool)
    (hask : ∀ c, k ∉ c → (ask c).filter p = []) :
    ∃ c, k ∈ c ∧ (cs.flatMap ask).filter p = (ask c).filter p := by
  induction cs with
  | nil => cases hk
  | cons c cs ih =>
    rw [flatten_cons, nodup_append'] at hcs
    obtain ⟨-, hrest, hdisj⟩ := hcs
    rw [flatMap_cons, filter_append]
    by_cases hc : k ∈ c
    · have hnil : (cs.flatMap ask).filter p = [] := by
        rw [filter_flatMap, flatMap_eq_nil_iff]
        intro c' hc'
        exact hask c' fun hk' => hdisj hc (mem_flatten_of_mem hc' hk')
      exact ⟨c, hc, by rw [hnil, append_nil]⟩
    · have hk' : k ∈ cs.flatten := (mem_append.1 hk).resolve_left hc
      obtain ⟨c', hkc', heq⟩ := ih hrest hk'
      exact ⟨c', hkc', by rw [hask c hc, nil_append, heq]⟩

end Chunks

section Groups

variable {α κ : Type*} [DecidableEq κ]

/-- Group a list by key, each group in the order of the list. -/
def groupBy (key : α → κ) (l : List α) : AssocMap κ (List α) :=
  l.foldl (fun m a => m.set (key a) ((m.get (key a)).getD [] ++ [a])) []

/-- The group of a key, empty when the key has none. -/
def group (m : AssocMap κ (List α)) (k : κ) : List α := (m.get k).getD []

/-- The group of a key is the sublist of its elements. -/
@[simp] theorem group_groupBy (key : α → κ) (l : List α) (k : κ) :
    group (groupBy key l) k = l.filter fun a => key a = k := by
  induction l using reverseRecOn with
  | nil => rfl
  | append_singleton l a ih =>
    rw [groupBy, foldl_append, ← groupBy, foldl_cons, foldl_nil, group,
      AssocMap.get_set, filter_append]
    by_cases hk : key a = k
    · subst hk
      rw [if_pos rfl, Option.getD_some, ← ih]
      simp [group]
    · rw [if_neg hk, ← group, ih]
      simp [hk]

/-- The elements of a group are elements of the grouped list as a whole. -/
theorem mem_flatMap_of_mem_group {m : AssocMap κ (List α)} {k : κ} {a : α}
    (h : a ∈ group m k) : a ∈ m.flatMap Prod.snd := by
  cases hm : m.get k with
  | none =>
    rw [group, hm] at h
    cases h
  | some g =>
    rw [group, hm] at h
    exact mem_flatMap.2 ⟨(k, g), AssocMap.mem_of_get hm, h⟩

/-- Rewriting every group rewrites the group of a key. -/
theorem group_map (m : AssocMap κ (List α)) (f : α → α) (k : κ) :
    group (m.map fun g => (g.1, g.2.map f)) k = (group m k).map f := by
  rw [group, AssocMap.get_map m (fun _ g => g.map f), group]
  cases m.get k <;> rfl

end Groups

end Grouping
