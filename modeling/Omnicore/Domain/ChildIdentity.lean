import Omnicore.Lib.Machine
import Omnicore.Domain.AggregateRoot

/-!
# At most one active child per business identity

The contract of `AggregateValueObject` promises at most one active (not removed) child per business
identity in a collection.  This file runs the public primitives on one child type and characterises
when the promise is kept.

* `UniqueActive` : no two active entries of a list have the same identity.
* `changeInList_unique`, `removeFromList_unique` : the change and the removal keep it.
* `addToList_unique_iff` : the addition keeps it exactly when `reAddSafe` holds: the loop stops at
  the first entry of the identity, and re-activates it when it is removed without looking for an
  active entry further down.
* `changeAggregateChild_live_iff` : a change edits an active child exactly when `addressesLive`
  holds: the scan stops at the first entry of the identity, and rewrites it when it is removed.
* `FirstActive` : every active entry is the first of its identity.  A cleared list has this
  stronger property and additions preserve it, so a whole-collection replacement is always safe.
-/

namespace Omnicore.Domain

open List AggregateRoot

variable {α : Type} [AggregateValueObject α]

/-! ### One tracked list -/

/-- An entry is active while it is not marked removed. -/
def AggregateItemEntry.active (e : AggregateItemEntry α) : Bool := e.currentStatus ≠ .removed

open AggregateItemEntry

/-- An active entry of an item's identity. -/
def AggregateItemEntry.holds (item : α) (e : AggregateItemEntry α) : Bool :=
  e.active && isSameBusinessIdentity e.item item

variable (list : List (AggregateItemEntry α)) (ar : AggregateRoot α)

/-- No two active entries have the same business identity. -/
def UniqueActive : Prop :=
  list.Pairwise fun x y => ¬(x.active ∧ y.active ∧ isSameBusinessIdentity x.item y.item)

instance (list : List (AggregateItemEntry α)) : Decidable (UniqueActive list) :=
  inferInstanceAs (Decidable (list.Pairwise _))

/-- Every active entry is the first entry of its business identity. -/
def FirstActive : Prop :=
  list.Pairwise fun x y => ¬(y.active ∧ isSameBusinessIdentity x.item y.item)

/-- Every entry carries one of the statuses the primitives assign. -/
def KnownStatus : Prop := ∀ e ∈ list, e.currentStatus ≠ .unknown

/-- The first entry of the item's identity is not removed, or no entry after it is an active one
of that identity. -/
def reAddSafe (item : α) : List (AggregateItemEntry α) → Bool
  | [] => true
  | e :: list =>
    if isSameBusinessIdentity e.item item then
      e.active || list.all fun y => !(y.active && isSameBusinessIdentity y.item item)
    else reAddSafe item list

theorem FirstActive.unique {list : List (AggregateItemEntry α)} (h : FirstActive list) :
    UniqueActive list :=
  h.imp fun hxy hc => hxy hc.2

theorem map_cons_eq_ok {ε β : Type} {b : β} {r : Except ε (List β)} {list' : List β}
    (h : (b :: ·) <$> r = .ok list') : ∃ tail, r = .ok tail ∧ list' = b :: tail := by
  cases r with
  | error n => cases h
  | ok tail => exact ⟨tail, rfl, by cases h; rfl⟩

section Lawful

variable [LawfulIdentity α]

theorem same_comm (x y : α) : isSameBusinessIdentity x y = isSameBusinessIdentity y x := by
  rw [Bool.eq_iff_iff]; exact ⟨same_symm, same_symm⟩

theorem same_congr {x y : α} (h : isSameBusinessIdentity x y) (z : α) :
    isSameBusinessIdentity x z = isSameBusinessIdentity y z := by
  rw [Bool.eq_iff_iff]
  exact ⟨same_trans (same_symm h), same_trans h⟩

theorem reactivated_same (entry item : α) :
    isSameBusinessIdentity (reactivated entry item) item := by
  unfold reactivated
  split_ifs with h
  · cases hw : withItemID item (getID entry) with
    | none => exact same_refl item
    | some y => exact withItemID_same hw
  · exact same_refl item

/-! ### Adding -/

variable {list list' : List (AggregateItemEntry α)} {item original replacement : α}

variable {e : AggregateItemEntry α}

omit [LawfulIdentity α] in
/-- One turn of the addition loop: the entry is skipped, or it takes the item's values. -/
theorem addToList_cons (hk : e.currentStatus ≠ .unknown)
    (h : addToList item (e :: list) = .ok list') :
    (¬isSameBusinessIdentity e.item item ∧
      ∃ tail, addToList item list = .ok tail ∧ list' = e :: tail) ∨
    (isSameBusinessIdentity e.item item ∧
      (e.currentStatus = .removed ∨ e.currentStatus = .changed) ∧
      list' = { e with item := reactivated e.item item, currentStatus := .added } :: list) := by
  simp only [addToList] at h
  split_ifs at h with hm
  · refine .inr ⟨hm, ?_⟩
    split at h
    · cases h
    · cases h
    · cases h; exact ⟨.inl ‹_›, rfl⟩
    · cases h; exact ⟨.inr ‹_›, rfl⟩
    · exact absurd ‹_› hk
  · exact .inl ⟨hm, map_cons_eq_ok h⟩

theorem mem_addToList (hk : KnownStatus list) (h : addToList item list = .ok list')
    {y : AggregateItemEntry α} (hy : y ∈ list') :
    y ∈ list ∨ (isSameBusinessIdentity y.item item ∧ y.currentStatus = .added) := by
  induction list generalizing list' with
  | nil =>
    cases h
    rw [mem_singleton] at hy
    subst hy
    exact .inr ⟨same_refl item, rfl⟩
  | cons e list ih =>
    obtain ⟨hke, hkl⟩ := forall_mem_cons.1 hk
    rcases addToList_cons hke h with ⟨-, tail, ht, rfl⟩ | ⟨-, -, rfl⟩
    · rcases mem_cons.1 hy with rfl | hy
      · exact .inl mem_cons_self
      · exact (ih hkl ht hy).imp_left (mem_cons_of_mem _)
    · rcases mem_cons.1 hy with rfl | hy
      · exact .inr ⟨reactivated_same e.item item, rfl⟩
      · exact .inl (mem_cons_of_mem _ hy)

theorem addToList_known (hk : KnownStatus list) (h : addToList item list = .ok list') :
    KnownStatus list' := by
  intro y hy
  rcases mem_addToList hk h hy with hy | ⟨-, hs⟩
  · exact hk y hy
  · rw [hs]; decide

omit [LawfulIdentity α] in
theorem reAddSafe_of_refused {n : Notification} (h : addToList item list = .error n) :
    reAddSafe item list := by
  induction list with
  | nil => cases h
  | cons e list ih =>
    simp only [addToList] at h
    simp only [reAddSafe]
    split_ifs at h ⊢ with hm
    · split at h <;> simp_all [active]
    · cases hr : addToList item list with
      | ok tail => rw [hr] at h; cases h
      | error n' => rw [hr] at h; exact ih (by rw [hr]; cases h; rfl)

/-- **Adding keeps identities unique exactly when it is safe**: the re-activated entry must be the
only active one of its identity. -/
theorem addToList_unique_iff (hk : KnownStatus list) (hu : UniqueActive list)
    (h : addToList item list = .ok list') : UniqueActive list' ↔ reAddSafe item list := by
  induction list generalizing list' with
  | nil => cases h; simp [UniqueActive, reAddSafe]
  | cons e list ih =>
    obtain ⟨hke, hkl⟩ := forall_mem_cons.1 hk
    obtain ⟨he, hu'⟩ := pairwise_cons.1 hu
    rcases addToList_cons hke h with ⟨hm, tail, ht, rfl⟩ | ⟨hm, hs, rfl⟩
    · rw [reAddSafe, if_neg hm, ← ih hkl hu' ht]
      simp only [UniqueActive, pairwise_cons, and_iff_right_iff_imp]
      rintro - y hy ⟨hea, hya, hsame⟩
      rcases mem_addToList hkl ht hy with hy | ⟨hyi, -⟩
      · exact he y hy ⟨hea, hya, hsame⟩
      · exact hm (same_trans hsame hyi)
    · -- the entry that takes the item's values is active and matches what the item matches
      have hcongr := same_congr (reactivated_same e.item item)
      have hnew : UniqueActive
          ({ e with item := reactivated e.item item, currentStatus := .added } :: list) ↔
          ∀ y ∈ list, ¬(y.active ∧ isSameBusinessIdentity y.item item) := by
        simp only [UniqueActive, pairwise_cons]
        refine ⟨fun hp y hy hc => hp.1 y hy ⟨rfl, hc.1, ?_⟩,
          fun hp => ⟨fun y hy hc => hp y hy ⟨hc.2.1, ?_⟩, hu'⟩⟩
        · rw [hcongr, same_comm]; exact hc.2
        · rw [same_comm, ← hcongr]; exact hc.2.2
      rw [hnew, reAddSafe, if_pos hm]
      rcases hs with hs | hs
      · simp only [active, hs, ne_eq, not_true_eq_false, decide_false,
          Bool.false_or, all_eq_true, Bool.not_eq_true', Bool.and_eq_false_iff,
          decide_eq_true_eq, decide_eq_false_iff_not, not_not, not_and_or, Bool.not_eq_true]
      · have ha : e.active := by simp [active, hs]
        simp only [ha, Bool.true_or, iff_true]
        rintro y hy ⟨hya, hys⟩
        exact he y hy ⟨ha, hya, same_trans hm (same_symm hys)⟩

theorem addToList_first (hk : KnownStatus list) (hf : FirstActive list)
    (h : addToList item list = .ok list') : FirstActive list' := by
  induction list generalizing list' with
  | nil => cases h; simp [FirstActive]
  | cons e list ih =>
    obtain ⟨hke, hkl⟩ := forall_mem_cons.1 hk
    obtain ⟨he, hf'⟩ := pairwise_cons.1 hf
    rcases addToList_cons hke h with ⟨hm, tail, ht, rfl⟩ | ⟨hm, -, rfl⟩
    · refine pairwise_cons.2 ⟨?_, ih hkl hf' ht⟩
      rintro y hy ⟨hya, hsame⟩
      rcases mem_addToList hkl ht hy with hy | ⟨hyi, -⟩
      · exact he y hy ⟨hya, hsame⟩
      · exact hm (same_trans hsame hyi)
    · refine pairwise_cons.2 ⟨?_, hf'⟩
      rintro y hy ⟨hya, hsame⟩
      refine he y hy ⟨hya, ?_⟩
      rw [same_congr hm, ← same_congr (reactivated_same e.item item)]
      exact hsame

/-! ### Changing and removing -/

omit [LawfulIdentity α]

theorem changeScan_append (replacement : α) {pre : List (AggregateItemEntry α)} {target : Option ℕ}
    (h : target = none → ∀ e ∈ pre, ¬isSameBusinessIdentity e.item original)
    (rest : List (AggregateItemEntry α)) (i : ℕ) (collision : Option ℕ) :
    ∃ c, c.isNone = (collision.isNone && !pre.any (·.holds replacement)) ∧
      changeScan original replacement (pre ++ rest) i target collision =
        changeScan original replacement rest (i + pre.length) target c := by
  induction pre generalizing i collision with
  | nil => exact ⟨collision, by simp, rfl⟩
  | cons e pre ih =>
    have hpass : ¬(target.isNone && isSameBusinessIdentity e.item original) = true := by
      cases target with
      | none => simpa using h rfl e mem_cons_self
      | some t => simp
    have ih := ih fun ht x hx => h ht x (mem_cons_of_mem e hx)
    rw [cons_append, changeScan, if_neg hpass, Bool.and_assoc, length_cons,
      Nat.add_comm pre.length, ← Nat.add_assoc]
    by_cases hc : (collision.isNone && e.holds replacement) = true
    · obtain ⟨c, hnone, heq⟩ := ih (i + 1) (some i)
      refine ⟨c, ?_, (if_pos hc).trans heq⟩
      simp_all
    · obtain ⟨c, hnone, heq⟩ := ih (i + 1) collision
      refine ⟨c, ?_, (if_neg hc).trans heq⟩
      cases collision <;> simp_all

variable {pre post : List (AggregateItemEntry α)}

theorem changeInList_split
    (hpre : ∀ x ∈ pre, ¬isSameBusinessIdentity x.item original)
    (he : isSameBusinessIdentity e.item original) :
    changeInList original replacement (pre ++ e :: post) =
      if (pre ++ post).any (·.holds replacement) then .error .entityAlreadyAdded
      else .ok (pre ++ { e with item := replacement, currentStatus := .changed } :: post) := by
  obtain ⟨c, hc, hscan⟩ := changeScan_append replacement (fun _ => hpre) (e :: post) 0 none
  have hpost : some pre.length = none → ∀ x ∈ post, ¬isSameBusinessIdentity x.item original := nofun
  obtain ⟨c', hc', hscan'⟩ := changeScan_append replacement hpost [] (pre.length + 1) c
  rw [append_nil] at hscan'
  rw [changeInList, hscan, changeScan, if_pos (by simpa using he), Nat.zero_add, hscan', changeScan]
  have hany : (pre ++ post).any (·.holds replacement) = c'.isSome := by
    rw [← Option.not_isNone, hc', hc, any_append]
    simp
  rw [hany]
  cases c' with
  | none => simp [modify_eq_take_cons_drop]
  | some _ => rfl

theorem split_identity (item : α) (list : List (AggregateItemEntry α)) :
    (∀ x ∈ list, ¬isSameBusinessIdentity x.item item) ∨ ∃ pre e post, list = pre ++ e :: post ∧
      (∀ x ∈ pre, ¬isSameBusinessIdentity x.item item) ∧ isSameBusinessIdentity e.item item := by
  cases h : list.find? (isSameBusinessIdentity ·.item item) with
  | none => exact .inl (find?_eq_none.1 h)
  | some e =>
    obtain ⟨he, pre, post, rfl, hpre⟩ := find?_eq_some_iff_append.1 h
    exact .inr ⟨pre, e, post, rfl, by simpa using hpre, he⟩

theorem changeInList_none (h : ∀ x ∈ list, ¬isSameBusinessIdentity x.item original) :
    changeInList original replacement list = .error .entityDoesNotExist := by
  obtain ⟨c, -, hscan⟩ := changeScan_append replacement (fun _ => h) [] 0 none
  rw [append_nil] at hscan
  rw [changeInList, hscan]
  rfl

theorem changeInList_ok (h : changeInList original replacement list = .ok list') :
    ∃ pre e post, list = pre ++ e :: post ∧
      list' = pre ++ { e with item := replacement, currentStatus := .changed } :: post ∧
      ∀ x ∈ pre ++ post, ¬x.holds replacement := by
  rcases split_identity original list with hnone | ⟨pre, e, post, rfl, hpre, he⟩
  · rw [changeInList_none hnone] at h
    cases h
  · rw [changeInList_split hpre he] at h
    split_ifs at h with hany
    cases h
    exact ⟨pre, e, post, rfl, rfl, by simpa [or_imp, forall_and] using hany⟩

variable {e e' : AggregateItemEntry α}

omit [AggregateValueObject α] in
theorem known_rewrite
    (hk : KnownStatus (pre ++ e :: post)) (he : e'.currentStatus ≠ .unknown) :
    KnownStatus (pre ++ e' :: post) := by
  simp only [KnownStatus, forall_mem_append, forall_mem_cons] at hk ⊢
  exact ⟨hk.1, he, hk.2.2⟩

theorem changeInList_known (hk : KnownStatus list)
    (h : changeInList original replacement list = .ok list') : KnownStatus list' := by
  obtain ⟨pre, e, post, rfl, rfl, -⟩ := changeInList_ok h
  exact known_rewrite hk (by simp)

theorem removeFromList_ok (h : removeFromList item list = .ok list') :
    ∃ pre e post, list = pre ++ e :: post ∧
      list' = pre ++ { e with currentStatus := .removed } :: post := by
  induction list generalizing list' with
  | nil => cases h
  | cons e list ih =>
    simp only [removeFromList] at h
    split_ifs at h with hm
    · cases h; exact ⟨[], e, list, rfl, rfl⟩
    · obtain ⟨tail, ht, rfl⟩ := map_cons_eq_ok h
      obtain ⟨pre, e', post, rfl, rfl⟩ := ih ht
      exact ⟨e :: pre, e', post, rfl, rfl⟩

theorem removeFromList_known (hk : KnownStatus list) (h : removeFromList item list = .ok list') :
    KnownStatus list' := by
  obtain ⟨pre, e, post, rfl, rfl⟩ := removeFromList_ok h
  exact known_rewrite hk (by simp)

variable [LawfulIdentity α]

/-- Rewriting one entry keeps identities unique unless another active entry has the new one. -/
theorem unique_rewrite
    (hu : UniqueActive (pre ++ e :: post))
    (he : e'.active → ∀ x ∈ pre ++ post, ¬x.holds e'.item) : UniqueActive (pre ++ e' :: post) := by
  simp only [UniqueActive, pairwise_append, pairwise_cons, forall_mem_cons] at hu ⊢
  obtain ⟨hpre, ⟨-, hpost⟩, hcross⟩ := hu
  refine ⟨hpre, ⟨fun y hy hc => ?_, hpost⟩, fun x hx => ⟨fun hc => ?_, (hcross x hx).2⟩⟩
  · exact he hc.1 y (mem_append_right _ hy) (by simpa [holds, same_comm] using hc.2)
  · exact he hc.2.1 x (mem_append_left _ hx) (by simpa [holds] using ⟨hc.1, hc.2.2⟩)

/-- **Changing keeps identities unique**: the scan refuses an identity another active entry
holds. -/
theorem changeInList_unique (hu : UniqueActive list)
    (h : changeInList original replacement list = .ok list') : UniqueActive list' := by
  obtain ⟨pre, e, post, rfl, rfl, hfree⟩ := changeInList_ok h
  exact unique_rewrite hu fun _ => hfree

theorem removeFromList_unique (hu : UniqueActive list) (h : removeFromList item list = .ok list') :
    UniqueActive list' := by
  obtain ⟨pre, e, post, rfl, rfl⟩ := removeFromList_ok h
  exact unique_rewrite hu fun ha => by simp [active] at ha

end Lawful

/-! ### Changing a live child -/

/-- A change of the active entry of the original's identity: refused without one, and when another
active entry has the new identity. -/
def changeLive (original replacement : α) (list : List (AggregateItemEntry α)) :
    Except Notification (List (AggregateItemEntry α)) :=
  match list.findIdx? (·.holds original) with
  | none => .error .entityDoesNotExist
  | some i =>
    if (list.eraseIdx i).any (·.holds replacement) then .error .entityAlreadyAdded
    else .ok (list.modify i fun e => { e with item := replacement, currentStatus := .changed })

/-- The first entry of the original's identity is active, or an active one further down is not to be
changed: another active entry has the new identity. -/
def addressesLive (original replacement : α) (list : List (AggregateItemEntry α)) : Bool :=
  (list.find? (isSameBusinessIdentity ·.item original)).all active ||
    (list.findIdx? (·.holds original)).any fun i => (list.eraseIdx i).any (·.holds replacement)

theorem findIdx?_holds_none {item : α} (h : ∀ x ∈ list, ¬isSameBusinessIdentity x.item item) :
    list.findIdx? (·.holds item) = none := by
  rw [findIdx?_eq_none_iff]
  intro x hx
  simp [holds, h x hx]

theorem changeInList_eq_changeLive_iff (original replacement : α) :
    changeInList original replacement list = changeLive original replacement list ↔
      addressesLive original replacement list := by
  rcases split_identity original list with hnone | ⟨pre, e, post, rfl, hpre, he⟩
  · rw [changeInList_none hnone, changeLive, findIdx?_holds_none _ hnone, addressesLive,
      find?_eq_none.2 hnone]
    simp
  have hfind : (pre ++ e :: post).find? (isSameBusinessIdentity ·.item original) = some e :=
    find?_eq_some_iff_append.2 ⟨he, pre, post, rfl, by simpa using hpre⟩
  rw [changeInList_split hpre he, changeLive, addressesLive, hfind, Option.all_some]
  by_cases ha : e.active = true
  · have hidx : (pre ++ e :: post).findIdx? (·.holds original) = some pre.length := by
      rw [findIdx?_append, findIdx?_holds_none _ hpre]
      simp [findIdx?_cons, holds, ha, he]
    simp [hidx, ha, eraseIdx_append_of_length_le, modify_eq_take_cons_drop]
  · cases hidx : (pre ++ e :: post).findIdx? (·.holds original) with
    | none =>
      simp only [ha, Option.any_none]
      split_ifs <;> simp
    | some i =>
      obtain ⟨hi, hlive, -⟩ := findIdx?_eq_some_iff_getElem.1 hidx
      have hne : i ≠ pre.length := by
        rintro rfl
        simp [holds, ha] at hlive
      simp only [ha, Option.any_some, Bool.false_or]
      constructor
      · -- the code writes the removed entry, which stays as it is under `changeLive`
        intro h
        by_contra hfree
        split_ifs at h
        have hentry := congrArg (·[pre.length]?) (Except.ok.inj h)
        simp [hne] at hentry
        exact ha (congrArg active hentry).symm
      · intro hany
        obtain ⟨x, hx, hold⟩ := any_eq_true.1 hany
        have hx : x ∈ pre ++ post := by
          rcases mem_append.1 (mem_of_mem_eraseIdx hx) with hx | hx
          · exact mem_append_left _ hx
          · rcases mem_cons.1 hx with rfl | hx
            · simp [holds, ha] at hold
            · exact mem_append_right _ hx
        rw [if_pos hany, if_pos (any_eq_true.2 ⟨x, hx, hold⟩)]

theorem store_inj {key : String} {item : α}
    {r r' : Except Notification (List (AggregateItemEntry α))}
    (h : ar.store key item r = ar.store key item r') : r = r' := by
  cases r <;> cases r'
  case ok.ok list list' =>
    have := congrArg (entries · key) h
    simpa [store, entries_setEntries] using this
  all_goals
    simp_all [store, setEntries, addNotificationMessage]

/-- **A change edits a live child** exactly when it addresses one. -/
theorem changeAggregateChild_live_iff {original replacement : α}
    (ho : ar.isAllowedChild (some original)) (hr : ar.isAllowedChild (some replacement)) :
    ar.changeAggregateChild (some original) (some replacement) = ar.store (classNameOf original)
        original (changeLive original replacement (ar.entries (classNameOf original))) ↔
      addressesLive original replacement (ar.entries (classNameOf original)) := by
  have hchange : ar.changeAggregateChild (some original) (some replacement) =
      ar.store (classNameOf original) original
        (changeInList original replacement (ar.entries (classNameOf original))) := by
    simp [changeAggregateChild, ho, hr, changeAggregateItem]
  rw [hchange, ← changeInList_eq_changeLive_iff]
  exact ⟨store_inj ar, congrArg _⟩

/-! ### Runs of the primitives on one child type -/

/-- A call of a public primitive; a `none` item is a nil interface value. -/
inductive ChildOp (α : Type) where
  | add (item : Option α)
  | change (original replacement : Option α)
  | remove (item : Option α)
  | replace (items : List α)
  | clear
  deriving DecidableEq, Repr

open ChildOp

namespace ChildOp

/-- The root after the call, on the child type `typeName`. -/
def apply (typeName : String) (ar : AggregateRoot α) : ChildOp α → AggregateRoot α
  | .add item => ar.addAggregateChild item
  | .change original replacement => ar.changeAggregateChild original replacement
  | .remove item => ar.removeAggregateChild item
  | .replace items => ar.replaceAggregateChildrenOf typeName items
  | .clear => ar.clearAggregateItemsOfType typeName

/-- Every value passed to the call is of the child type `typeName`. -/
def OnType (typeName : String) : ChildOp α → Prop
  | .add item => ∀ x ∈ item, classNameOf x = typeName
  | .change original replacement =>
    (∀ x ∈ original, classNameOf x = typeName) ∧ ∀ x ∈ replacement, classNameOf x = typeName
  | .remove item => ∀ x ∈ item, classNameOf x = typeName
  | .replace items => ∀ x ∈ items, classNameOf x = typeName
  | .clear => True

/-- A direct addition that passes the type guard is safe; every other call is. -/
def safe (ar : AggregateRoot α) : ChildOp α → Bool
  | .add (some x) => !ar.isAllowedChild (some x) || reAddSafe x (ar.entries (classNameOf x))
  | _ => true

end ChildOp

/-- The primitives on one child type as a transition system. -/
def childMachine (typeName : String) : Machine (AggregateRoot α) (ChildOp α) where
  step ar op := some (op.apply typeName ar)

/-- A root loaded with `items`. -/
def constructed (aggregateChildren : List String) (items : List (Option α)) : AggregateRoot α :=
  ({ aggregateChildren } : AggregateRoot α).aggregateConstructor items

theorem entries_aggregateConstructor (items : List (Option α)) (typeName : String) :
    (ar.aggregateConstructor items).entries typeName = ar.entries typeName ++
      ((items.filterMap id).filter (classNameOf · = typeName)).map
        fun x => ⟨x, .constructor, .constructor⟩ := by
  induction items generalizing ar with
  | nil => simp [aggregateConstructor]
  | cons item items ih =>
    have hcons : ar.aggregateConstructor (item :: items) =
        aggregateConstructor (ar.aggregateConstructor [item]) items := rfl
    rw [hcons, ih]
    cases item with
    | none => simp [aggregateConstructor]
    | some x =>
      simp only [aggregateConstructor, foldl_cons, foldl_nil,
        entries_setEntries, filterMap_cons, id_eq, filter_cons,
        decide_eq_true_eq]
      split_ifs with h
      · simp [h]
      · rfl

theorem constructed_first (declared : List String) {items : List (Option α)}
    (hitems : (items.filterMap id).Pairwise fun x y => ¬isSameBusinessIdentity x y)
    (typeName : String) : FirstActive ((constructed declared items).entries typeName) ∧
      KnownStatus ((constructed declared items).entries typeName) := by
  have h : (constructed declared items).entries typeName =
      ((items.filterMap id).filter (classNameOf · = typeName)).map
        fun x => ⟨x, .constructor, .constructor⟩ :=
    entries_aggregateConstructor _ _ _
  rw [h]
  constructor
  · exact pairwise_map.2 ((hitems.filter _).imp fun hxy hc => hxy hc.2)
  · intro e he
    obtain ⟨x, -, rfl⟩ := mem_map.1 he
    simp

variable {typeName : String}

theorem entries_addAggregateChild {x : α} (hx : classNameOf x = typeName) :
    (ar.addAggregateChild (some x)).entries typeName = if ar.isAllowedChild (some x) then
      (addToList x (ar.entries typeName)).toOption.getD (ar.entries typeName)
      else ar.entries typeName := by
  subst hx
  simp only [addAggregateChild]
  split_ifs
  · simp [addAggregateItem, entries_store]
  · rfl

theorem entries_changeAggregateChild {original : Option α} (replacement : Option α)
    (hx : ∀ x ∈ original, classNameOf x = typeName) :
    (ar.changeAggregateChild original replacement).entries typeName = ar.entries typeName ∨
    ∃ x y, (ar.changeAggregateChild original replacement).entries typeName =
      (changeInList x y (ar.entries typeName)).toOption.getD (ar.entries typeName) := by
  cases original with
  | none => exact .inl rfl
  | some x =>
    obtain rfl := hx x rfl
    cases replacement with
    | none =>
      left
      simp only [changeAggregateChild]
      split_ifs <;> rfl
    | some y =>
      simp only [changeAggregateChild]
      split_ifs
      · exact .inl rfl
      · exact .inl rfl
      · exact .inr ⟨x, y, by simp [changeAggregateItem, entries_store]⟩

theorem entries_removeAggregateChild {item : Option α} (hx : ∀ x ∈ item, classNameOf x = typeName) :
    (ar.removeAggregateChild item).entries typeName = ar.entries typeName ∨
    ∃ x, (ar.removeAggregateChild item).entries typeName =
      (removeFromList x (ar.entries typeName)).toOption.getD (ar.entries typeName) := by
  cases item with
  | none => exact .inl rfl
  | some x =>
    obtain rfl := hx x rfl
    simp only [removeAggregateChild]
    split_ifs
    · exact .inr ⟨x, by simp [removeAggregateItem, entries_store]⟩
    · exact .inl rfl

theorem toOption_getD_ind {β ε : Type} {P : List β → Prop} {list : List β}
    {r : Except ε (List β)} (h0 : P list) (h : ∀ list', r = .ok list' → P list') :
    P (r.toOption.getD list) := by
  cases r with
  | error _ => exact h0
  | ok list' => exact h list' rfl

theorem cleared_first (typeName : String) :
    FirstActive ((ar.clearAggregateItemsOfType typeName).entries typeName) ∧
      KnownStatus ((ar.clearAggregateItemsOfType typeName).entries typeName) := by
  rw [entries_clearAggregateItemsOfType, if_pos rfl]
  constructor
  · refine pairwise_map.2 (pairwise_of_forall fun x y hc => ?_)
    simp [active] at hc
  · intro e he
    obtain ⟨x, -, rfl⟩ := mem_map.1 he
    simp

variable [LawfulIdentity α]

theorem foldl_add_first {items : List α} {ar : AggregateRoot α}
    (hitems : ∀ x ∈ items, classNameOf x = typeName)
    (h : FirstActive (ar.entries typeName) ∧ KnownStatus (ar.entries typeName)) :
    FirstActive
      ((items.foldl (fun ar x => ar.addAggregateChild (some x)) ar).entries typeName) ∧
    KnownStatus
      ((items.foldl (fun ar x => ar.addAggregateChild (some x)) ar).entries typeName) := by
  induction items generalizing ar with
  | nil => exact h
  | cons x items ih =>
    obtain ⟨hx, hitems⟩ := forall_mem_cons.1 hitems
    refine ih hitems ?_
    rw [entries_addAggregateChild ar hx]
    split_ifs
    · exact toOption_getD_ind (P := fun l => FirstActive l ∧ KnownStatus l) h fun list' hl =>
        ⟨addToList_first h.2 h.1 hl, addToList_known h.2 hl⟩
    · exact h

/-- **Step.** From a state with unique active identities, a call leads to one exactly when it is
safe. -/
theorem apply_unique_iff {ar : AggregateRoot α} {op : ChildOp α} (hop : op.OnType typeName)
    (hk : KnownStatus (ar.entries typeName)) (hu : UniqueActive (ar.entries typeName)) :
    KnownStatus ((op.apply typeName ar).entries typeName) ∧
      (UniqueActive ((op.apply typeName ar).entries typeName) ↔ op.safe ar) := by
  cases op with
  | add item =>
    cases item with
    | none => exact ⟨hk, iff_of_true hu rfl⟩
    | some x =>
      obtain rfl := hop x rfl
      simp only [apply, safe, entries_addAggregateChild ar rfl]
      split_ifs with hallowed
      · simp only [hallowed, Bool.not_true, Bool.false_or]
        cases hr : addToList x (ar.entries (classNameOf x)) with
        | error n => exact ⟨hk, iff_of_true hu (reAddSafe_of_refused hr)⟩
        | ok list' => exact ⟨addToList_known hk hr, addToList_unique_iff hk hu hr⟩
      · simp only [hallowed, Bool.not_false, Bool.true_or, iff_true]
        exact ⟨hk, hu⟩
  | change original replacement =>
    simp only [safe, iff_true]
    rcases entries_changeAggregateChild ar replacement hop.1 with h | ⟨x, y, h⟩
    · exact h ▸ ⟨hk, hu⟩
    · simp only [apply, h]
      exact toOption_getD_ind (P := fun l => KnownStatus l ∧ UniqueActive l) ⟨hk, hu⟩
        fun list' hl => ⟨changeInList_known hk hl, changeInList_unique hu hl⟩
  | remove item =>
    simp only [safe, iff_true]
    rcases entries_removeAggregateChild ar hop with h | ⟨x, h⟩
    · exact h ▸ ⟨hk, hu⟩
    · simp only [apply, h]
      exact toOption_getD_ind (P := fun l => KnownStatus l ∧ UniqueActive l) ⟨hk, hu⟩
        fun list' hl => ⟨removeFromList_known hk hl, removeFromList_unique hu hl⟩
  | replace items =>
    have h := foldl_add_first hop (cleared_first ar typeName)
    exact ⟨h.2, iff_of_true h.1.unique rfl⟩
  | clear =>
    have h := cleared_first ar typeName
    exact ⟨h.2, iff_of_true h.1.unique rfl⟩

/-- **Identities stay unique exactly along safe runs.**  From a root loaded with children of
distinct identities, every state of a run of the primitives on one child type has at most one
active child per identity if and only if no direct addition of the run re-activates a removed
entry in front of an active one of its identity. -/
theorem uniqueActive_iff_safe (declared : List String) (typeName : String)
    (items : List (Option α)) (ops : List (ChildOp α))
    (hitems : (items.filterMap id).Pairwise fun x y => ¬isSameBusinessIdentity x y)
    (hops : ∀ op ∈ ops, op.OnType typeName) :
    (childMachine typeName).Always (fun ar => UniqueActive (ar.entries typeName))
        (constructed declared items) ops ↔
      (childMachine typeName).Along (fun ar op => op.safe ar) (constructed declared items) ops := by
  have h0 := constructed_first declared hitems typeName
  refine Machine.always_iff_along (K := fun ar => KnownStatus (ar.entries typeName))
    (fun op hop ar hk hu => ⟨_, rfl, ?_⟩) h0.2 h0.1.unique
  exact apply_unique_iff (hops op hop) hk hu

/-! ### A natural-key child type -/

/-- A child whose identity is its key alone; the payload and the managed carrier (row id and
archive stamp) are outside it. -/
structure KeyedAVO where
  id : String := ""
  archivedAt : Option ℕ := none
  key : String
  payload : String := ""
  deriving DecidableEq, Repr

instance : AggregateValueObject KeyedAVO where
  classNameOf _ := "keyedAVO"
  collectionName _ := "KeyedAVOs"
  getID := KeyedAVO.id
  withItemID x id := some { x with id }
  isSameBusinessIdentity x y := x.key == y.key

instance : LawfulIdentity KeyedAVO where
  same_refl x := by simp [isSameBusinessIdentity]
  same_symm h := by simp only [isSameBusinessIdentity, beq_iff_eq] at h ⊢; exact h.symm
  same_trans h h' := by
    simp only [isSameBusinessIdentity, beq_iff_eq] at h h' ⊢; exact h.trans h'
  withItemID_same h := by cases h; simp [isSameBusinessIdentity]
  withItemID_getID h := by cases h; rfl

/-- Two loaded rows with distinct keys. -/
def keyedRows : List (Option KeyedAVO) :=
  [some { id := "row-a", key := "a" }, some { id := "row-b", key := "b" }]

theorem uniqueActive_keyed_run :
    (childMachine "keyedAVO").Always (fun ar => UniqueActive (ar.entries "keyedAVO"))
      (constructed ["keyedAVO"] keyedRows)
      [.remove (some { key := "a" }), .add (some { key := "a", payload := "again" }),
        .change (some { key := "b" }) (some { key := "c" }), .replace [{ key := "b" }]] :=
  (uniqueActive_iff_safe ["keyedAVO"] "keyedAVO" keyedRows _ (by decide)
    (by simp [ChildOp.OnType, classNameOf])).2 (by decide)

theorem keyed_change_live :
    (constructed ["keyedAVO"] keyedRows).changeAggregateChild (some { key := "a" })
        (some { key := "c" }) = (constructed ["keyedAVO"] keyedRows).store "keyedAVO" { key := "a" }
      (changeLive { key := "a" } { key := "c" }
        ((constructed ["keyedAVO"] keyedRows).entries "keyedAVO")) :=
  (changeAggregateChild_live_iff _ (by decide) (by decide)).2 (by decide)

/-- A change of the removed `a` brings it back. -/
theorem change_revives_removed :
    ∃ ar ∈ (childMachine "keyedAVO").run (constructed ["keyedAVO"] keyedRows)
        [.remove (some { key := "a" })],
      ar.changeAggregateChild (some { key := "a" }) (some { key := "a", payload := "again" }) ≠
        ar.store "keyedAVO" { key := "a" } (changeLive { key := "a" }
          { key := "a", payload := "again" } (ar.entries "keyedAVO")) := by
  decide

/-- Remove `a`, move `b` onto the key `a`, add `a` again. -/
def readdRun : List (ChildOp KeyedAVO) :=
  [.remove (some { key := "a" }), .change (some { key := "b" }) (some { key := "a" }),
    .add (some { key := "a" })]

/-- The last addition of `readdRun` re-activates the removed entry next to the moved one. -/
theorem two_active_after_readd :
    ((keyedRows.filterMap id).Pairwise fun x y => ¬isSameBusinessIdentity x y) ∧
    (∀ op ∈ readdRun, op.OnType "keyedAVO") ∧
    ¬(childMachine "keyedAVO").Always (fun ar => UniqueActive (ar.entries "keyedAVO"))
      (constructed ["keyedAVO"] keyedRows) readdRun :=
  ⟨by decide, by simp [readdRun, ChildOp.OnType, classNameOf], by decide⟩

end Omnicore.Domain
