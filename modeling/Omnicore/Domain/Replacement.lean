import Mathlib.Data.List.Induction
import Omnicore.Lib.Matching
import Omnicore.Domain.ChildIdentity

/-!
# The list after a replacement

`ReplaceAggregateChildrenOf` marks the loaded children of a type removed and adds the new items one
by one.  An item takes the place of the first loaded child of its identity and keeps its id, which
makes it an update of that child's row; the loaded children nothing takes the place of stay removed,
and the items that match none are appended.

## Main results

* `entries_replaceAggregateChildrenOf` : the list, for items of pairwise distinct identities.
-/

namespace Omnicore.Domain

open List AggregateRoot

variable {α : Type} [AggregateValueObject α]

/-- The entry of a loaded child once an item has taken its place, or none has. -/
def replacedEntry (loaded : α) : Option α → AggregateItemEntry α
  | some x => ⟨reactivated loaded x, .constructor, .added⟩
  | none => ⟨loaded, .constructor, .removed⟩

/-- The entries of the loaded children, then those of the items that match none. -/
def replacedEntries (loaded items : List α) : List (AggregateItemEntry α) :=
  (matchFirst isSameBusinessIdentity loaded items).1.map (fun p => replacedEntry p.1 p.2) ++
    (matchFirst isSameBusinessIdentity loaded items).2.map (⟨·, .added, .added⟩)

theorem replacedEntries_cons (l : α) (loaded items : List α) :
    replacedEntries (l :: loaded) items =
      replacedEntry l (items.find? (isSameBusinessIdentity l)) ::
        replacedEntries loaded (items.filter fun x => !isSameBusinessIdentity l x) := rfl

theorem replacedEntries_nil (loaded : List α) : replacedEntries loaded [] =
    loaded.map fun x => ⟨x, .constructor, .removed⟩ := by
  induction loaded with
  | nil => rfl
  | cons l loaded ih => exact congrArg (_ :: ·) ih

theorem addToList_of_new {item : α} {list : List (AggregateItemEntry α)}
    (h : ∀ e ∈ list, ¬isSameBusinessIdentity e.item item) :
    addToList item list = .ok (list ++ [⟨item, .added, .added⟩]) := by
  induction list with
  | nil => rfl
  | cons e list ih =>
    obtain ⟨he, hlist⟩ := forall_mem_cons.1 h
    rw [addToList, if_neg he, ih hlist]
    rfl

variable [LawfulIdentity α]

variable {loaded items : List α} {ar : AggregateRoot α}

/-- **Step.** One item more. -/
theorem addToList_replacedEntries {y : α} (hnew : ∀ x ∈ items, ¬isSameBusinessIdentity x y) :
    addToList y (replacedEntries loaded items) = .ok (replacedEntries loaded (items ++ [y])) := by
  induction loaded generalizing items with
  | nil =>
    have hlist : ∀ e ∈ items.map fun x => (⟨x, .added, .added⟩ : AggregateItemEntry α),
        ¬isSameBusinessIdentity e.item y := by
      intro e he
      obtain ⟨x, hx, rfl⟩ := mem_map.1 he
      exact hnew x hx
    simp [replacedEntries, matchFirst, addToList_of_new hlist]
  | cons l loaded ih =>
    have hfilter : ∀ x ∈ items.filter fun x => !isSameBusinessIdentity l x,
        ¬isSameBusinessIdentity x y := fun x hx => hnew x (mem_of_mem_filter hx)
    have hrest := ih hfilter
    rw [replacedEntries_cons, replacedEntries_cons, find?_append, filter_append]
    cases hfind : items.find? (isSameBusinessIdentity l) with
    | some x =>
      -- the place of `l` is taken, by an item of another identity than `y`
      have hlx : isSameBusinessIdentity l x := find?_some hfind
      have hxy : ¬isSameBusinessIdentity x y := hnew x (mem_of_find?_eq_some hfind)
      have hly : ¬isSameBusinessIdentity l y := fun h => hxy (same_trans (same_symm hlx) h)
      have hentry : ¬isSameBusinessIdentity (reactivated l x) y := fun h =>
        hxy (same_trans (same_symm (reactivated_same l x)) h)
      rw [replacedEntry, addToList, if_neg hentry, hrest]
      simp [hly, replacedEntry]
    | none =>
      by_cases hly : isSameBusinessIdentity l y
      · simp [addToList, replacedEntry, hly]
      · rw [replacedEntry, addToList, if_neg hly, hrest]
        simp [hly, replacedEntry]

/-- **Run.** All items of a replacement. -/
theorem entries_foldl_addAggregateChild {typeName : String}
    (hallowed : typeName ∈ ar.aggregateChildren)
    (hentries : ar.entries typeName = replacedEntries loaded []) (hkeys : ar.aggregates.keys.Nodup)
    (hclass : ∀ x ∈ items, classNameOf x = typeName)
    (hdistinct : items.Pairwise fun x y => ¬isSameBusinessIdentity x y) :
    let ar' := items.foldl (fun ar x => ar.addAggregateChild (some x)) ar
    ar'.entries typeName = replacedEntries loaded items ∧
      ar'.aggregateChildren = ar.aggregateChildren ∧ ar'.aggregates.keys.Nodup := by
  induction items using reverseRecOn with
  | nil => exact ⟨hentries, rfl, hkeys⟩
  | append_singleton items y ih =>
    rw [forall_mem_append] at hclass
    obtain ⟨hdistinct, -, hnew⟩ := pairwise_append.1 hdistinct
    obtain ⟨hlist, hdecl, hkeys⟩ := ih hclass.1 hdistinct
    rw [foldl_append, foldl_cons, foldl_nil]
    generalize items.foldl (fun ar x => ar.addAggregateChild (some x)) ar = ar' at *
    have hy : classNameOf y = typeName := hclass.2 y mem_cons_self
    have hadd : ar'.addAggregateChild (some y) =
        ar'.setEntries typeName (replacedEntries loaded (items ++ [y])) := by
      have hok : ar'.isAllowedChild (some y) = true := by
        simp [isAllowedChild, hdecl, hy, hallowed]
      rw [addAggregateChild, if_pos hok, addAggregateItem, hy, hlist,
        addToList_replacedEntries fun x hx => hnew x hx y mem_cons_self]
      rfl
    rw [hadd]
    refine ⟨?_, hdecl, AssocMap.keys_set_nodup hkeys⟩
    rw [entries_setEntries, if_pos rfl]

/-- **The list after a replacement.** -/
theorem entries_replaceAggregateChildrenOf {typeName : String}
    (hallowed : typeName ∈ ar.aggregateChildren)
    (hloaded : ar.entries typeName = loaded.map fun x => ⟨x, .constructor, .constructor⟩)
    (hkeys : ar.aggregates.keys.Nodup) (hclass : ∀ x ∈ items, classNameOf x = typeName)
    (hdistinct : items.Pairwise fun x y => ¬isSameBusinessIdentity x y) :
    (ar.replaceAggregateChildrenOf typeName items).entries typeName = replacedEntries loaded items ∧
    (ar.replaceAggregateChildrenOf typeName items).aggregates.keys.Nodup := by
  have hcleared : (ar.clearAggregateItemsOfType typeName).entries typeName =
      replacedEntries loaded [] := by
    rw [entries_clearAggregateItemsOfType, if_pos rfl, hloaded, replacedEntries_nil, map_map]
    rfl
  have hallowed' : typeName ∈ (ar.clearAggregateItemsOfType typeName).aggregateChildren := hallowed
  obtain ⟨hlist, -, hkeys⟩ := entries_foldl_addAggregateChild hallowed' hcleared
    (AssocMap.keys_set_nodup hkeys) hclass hdistinct
  exact ⟨hlist, hkeys⟩

end Omnicore.Domain
