import Omnicore.Lib.AssocMap
import Omnicore.Lib.Machine

/-!
# Committed offsets

A consumer group hands a member partitions for one generation at a time.  Messages of a partition
arrive in offset order and are dispatched to concurrent workers, so they finish in any order.  The
tracker of a generation keeps, per partition, the lowest offset that is not finished, and a commit
loop passes it to the coordinator; a completion that arrives after the generation ended is dropped.

## Main definitions

* `GenTracker`, `observe`, `complete`, `snapshot` : the tracker and its critical sections.
* `Generation.step` : one step of a generation: a delivery, an outcome, or a step of the commit
  loop.  Taking the snapshot and handing it to the coordinator are separate steps.
* `subscription` : the member, with every generation it was ever assigned.

## Main results

* `Generation.Inv.step` : what every step of a generation preserves.
* `committed_covers_done` : committed offsets never cover unfinished work, and never decrease.
-/

namespace Omnicore.Transport

open List AssocMap Option

/-! ### The tracker -/

/-- An assigned partition. -/
structure PartKey where
  topic : String
  partition : ℕ
  deriving DecidableEq, Repr

/-- One partition: the lowest offset not completed, and the offsets completed above it. -/
structure PartState where
  next : ℕ := 0
  started : Bool := false
  completed : List ℕ := []
  deriving DecidableEq, Repr

open PartState

/-- The tracker of one generation. -/
structure GenTracker where
  closed : Bool := false
  dirty : Bool := false
  parts : AssocMap PartKey PartState := []
  deriving DecidableEq, Repr

/-- Advance the contiguous prefix as far as the completed offsets allow; each round takes an
offset out of them, so their number bounds the rounds. -/
def PartState.advance : ℕ → PartState → PartState
  | 0, st => st
  | n + 1, st =>
    if st.next ∈ st.completed then
      advance n { st with completed := st.completed.filter (· ≠ st.next), next := st.next + 1 }
    else st

/-- The first delivered offset of a partition is its floor. -/
def PartState.start (st : PartState) (offset : ℕ) : PartState :=
  if st.started then st else { st with next := offset, started := true }

/-- Register a delivered offset. -/
def GenTracker.observe (t : GenTracker) (key : PartKey) (offset : ℕ) : GenTracker :=
  { t with parts := t.parts.set key (((t.parts.get key).getD {}).start offset) }

/-- Release an offset, unless the generation ended or the prefix covers it. -/
def GenTracker.complete (t : GenTracker) (key : PartKey) (offset : ℕ) : GenTracker :=
  if t.closed then t
  else
    match t.parts.get key with
    | none => t
    | some st =>
      if offset < st.next then t
      else
        let completed := st.completed.insert offset
        let st' := { st with completed := completed }.advance completed.length
        { t with parts := t.parts.set key st', dirty := t.dirty || decide (st'.next ≠ st.next) }

/-- The offsets a flush commits: the prefix of every started partition, when one moved. -/
def GenTracker.snapshot (t : GenTracker) : Option (AssocMap PartKey ℕ) :=
  if t.closed || !t.dirty then none
  else some ((t.parts.filter fun p => p.2.started).map fun p => (p.1, p.2.next))

/-! ### A generation -/

/-- The outcome reported for a message. -/
inductive Outcome where
  | done
  | failed
  deriving DecidableEq, Repr

/-- Where the commit loop of a generation is. -/
inductive CommitLoop where
  | waiting
  /-- Between the snapshot and the commit of a flush; the last flush closes the tracker. -/
  | committing (offsets : AssocMap PartKey ℕ) (last : Bool)
  | closing
  | stopped
  deriving DecidableEq, Repr

/-- A generation: its tracker, its commit loop, and what happened in it. -/
structure Generation where
  tracker : GenTracker := {}
  loop : CommitLoop := .waiting
  /-- The delivered messages, the latest first. -/
  delivered : List (PartKey × ℕ) := []
  /-- The outcomes reported so far. -/
  outcomes : AssocMap (PartKey × ℕ) Outcome := []
  /-- The arguments of `CommitOffsets`, the latest first. -/
  commits : List (AssocMap PartKey ℕ) := []
  deriving DecidableEq, Repr

/-- A step of a generation. -/
inductive Action where
  | deliver (key : PartKey) (offset : ℕ)
  | settle (key : PartKey) (offset : ℕ) (outcome : Outcome)
  /-- The locked part of a flush, the final one when the generation's context is done. -/
  | flush (last : Bool)
  | commit
  | close
  deriving DecidableEq, Repr

namespace Generation

/-- One step of a generation.  Offsets of a partition are delivered in order; only a delivered
message is settled, and only its first outcome counts. -/
def step (g : Generation) : Action → Option Generation
  | .deliver key offset =>
    if ∀ d ∈ g.delivered, d.1 = key → d.2 < offset then
      some { g with
        tracker := g.tracker.observe key offset
        delivered := (key, offset) :: g.delivered }
    else none
  | .settle key offset outcome =>
    if (key, offset) ∈ g.delivered then
      match g.outcomes.get (key, offset) with
      | some _ => some g
      | none => some { g with
          tracker := match outcome with
            | .done => g.tracker.complete key offset
            | .failed => g.tracker
          outcomes := g.outcomes.set (key, offset) outcome }
    else none
  | .flush last =>
    match g.loop with
    | .waiting =>
      match g.tracker.snapshot with
      | none => some { g with loop := if last then .closing else .waiting }
      | some offsets => some { g with
          tracker := { g.tracker with dirty := false }
          loop := .committing offsets last }
    | _ => none
  | .commit =>
    match g.loop with
    | .committing offsets last => some { g with
        commits := offsets :: g.commits
        loop := if last then .closing else .waiting }
    | _ => none
  | .close =>
    match g.loop with
    | .closing => some { g with
        tracker := { g.tracker with closed := true }
        loop := .stopped }
    | _ => none

/-- The offsets committed for a partition, the latest first. -/
def committed (g : Generation) (key : PartKey) : List ℕ := g.commits.filterMap (·.get key)

/-- A delivered message was settled as done. -/
def Done (g : Generation) (key : PartKey) (offset : ℕ) : Prop :=
  (key, offset) ∈ g.delivered ∧ g.outcomes.get (key, offset) = some .done

end Generation

/-! ### A subscription -/

/-- A step of a subscription: a new generation, or a step of any generation so far.  A message of
an old generation may still be in the hands of a worker. -/
inductive Event where
  | next
  | act (gen : ℕ) (a : Action)
  deriving DecidableEq, Repr

/-- A consumer group member over all its generations. -/
def subscription : Machine (List Generation) Event where
  step s
    | .next => some (s ++ [{}])
    | .act gen a => (s[gen]?).bind fun g => (g.step a).map fun g' => s.set gen g'

/-! ### Advancing the prefix -/

namespace PartState

theorem advance_started (n : ℕ) (st : PartState) : (st.advance n).started = st.started := by
  induction n generalizing st with
  | zero => rfl
  | succ n ih =>
    rw [advance]
    split_ifs
    · exact ih _
    · rfl

theorem next_le_advance (n : ℕ) (st : PartState) : st.next ≤ (st.advance n).next := by
  induction n generalizing st with
  | zero => exact Nat.le_refl _
  | succ n ih =>
    rw [advance]
    split_ifs
    · refine Nat.le_trans ?_ (ih _)
      exact Nat.le_succ st.next
    · exact Nat.le_refl _

theorem mem_completed_of_lt_advance {n : ℕ} {st : PartState} {x : ℕ} (hx : st.next ≤ x)
    (h : x < (st.advance n).next) : x ∈ st.completed := by
  induction n generalizing st with
  | zero => exact absurd h (Nat.not_lt.2 hx)
  | succ n ih =>
    rw [advance] at h
    split_ifs at h with hnext
    · rcases Nat.eq_or_lt_of_le hx with rfl | hlt
      · exact hnext
      · refine mem_of_mem_filter (ih ?_ h)
        exact hlt
    · exact absurd h (Nat.not_lt.2 hx)

theorem completed_advance_subset (n : ℕ) (st : PartState) :
    (st.advance n).completed ⊆ st.completed := by
  induction n generalizing st with
  | zero => exact fun x hx => hx
  | succ n ih =>
    rw [advance]
    split_ifs
    · exact fun x hx => mem_of_mem_filter (ih _ hx)
    · exact fun x hx => hx

end PartState

/-! ### The invariant of a generation -/

namespace Generation

variable {g g' : Generation} {key : PartKey} {offset : ℕ}

/-- What the tracker knows of a partition: the prefix starts at the first delivered offset, and
everything it passed, or keeps above it, is done. -/
structure Tracks (g : Generation) (key : PartKey) (st : PartState) : Prop where
  started : st.started = true
  floor : ∃ floor, (key, floor) ∈ g.delivered ∧ (∀ d, (key, d) ∈ g.delivered → floor ≤ d) ∧
    ∀ x, floor ≤ x → x < st.next → g.Done key x
  completed : ∀ x ∈ st.completed, g.Done key x

/-- The commits made and the one under way, the latest first. -/
def promised (g : Generation) : List (AssocMap PartKey ℕ) :=
  match g.loop with
  | .committing offsets _ => offsets :: g.commits
  | _ => g.commits

/-- The invariant of a generation. -/
structure Inv (g : Generation) : Prop where
  keys_nodup : (keys g.tracker.parts).Nodup
  tracks : ∀ key st, g.tracker.parts.get key = some st → g.Tracks key st
  unseen : ∀ key, g.tracker.parts.get key = none → ∀ d, (key, d) ∉ g.delivered
  bounded : ∀ offsets ∈ g.promised, ∀ key o, offsets.get key = some o →
    ∃ st, g.tracker.parts.get key = some st ∧ o ≤ st.next
  sorted : ∀ key, (g.promised.filterMap (·.get key)).Pairwise (· ≥ ·)

/-- What was done stays done. -/
def Extends (g g' : Generation) : Prop :=
  (∀ d ∈ g.delivered, d ∈ g'.delivered) ∧ ∀ key x, g.Done key x → g'.Done key x

theorem Tracks.mono {st : PartState} (h : g.Tracks key st) (hext : g.Extends g')
    (hnew : ∀ d, (key, d) ∈ g'.delivered → (key, d) ∈ g.delivered ∨
      ∃ d', (key, d') ∈ g.delivered ∧ d' ≤ d) : g'.Tracks key st := by
  obtain ⟨floor, hmem, hmin, hdone⟩ := h.floor
  refine ⟨h.started, ⟨floor, hext.1 _ hmem, fun d hd => ?_, fun x hx hlt =>
    hext.2 _ _ (hdone x hx hlt)⟩, fun x hx => hext.2 _ _ (h.completed x hx)⟩
  rcases hnew d hd with hd | ⟨d', hd', hle⟩
  · exact hmin d hd
  · exact Nat.le_trans (hmin d' hd') hle

theorem Tracks.congr {st : PartState} (h : g.Tracks key st)
    (hdelivered : g'.delivered = g.delivered) (houtcomes : g'.outcomes = g.outcomes) :
    g'.Tracks key st := by
  refine h.mono ⟨fun d hd => hdelivered ▸ hd, fun k x hx => ?_⟩ fun d hd => .inl (hdelivered ▸ hd)
  unfold Done
  rwa [hdelivered, houtcomes]

theorem bounded_of_le (h : g.Inv) (hpromised : g'.promised = g.promised)
    (hle : ∀ key st, g.tracker.parts.get key = some st →
      ∃ st', g'.tracker.parts.get key = some st' ∧ st.next ≤ st'.next) :
    ∀ offsets ∈ g'.promised, ∀ key o, offsets.get key = some o →
      ∃ st, g'.tracker.parts.get key = some st ∧ o ≤ st.next := by
  intro offsets hmem key o ho
  obtain ⟨st, hst, hso⟩ := h.bounded offsets (hpromised ▸ hmem) key o ho
  obtain ⟨st', hst', hnext⟩ := hle key st hst
  exact ⟨st', hst', Nat.le_trans hso hnext⟩

theorem Inv.deliver (h : g.Inv) (hord : ∀ d ∈ g.delivered, d.1 = key → d.2 < offset) :
    Inv { g with
      tracker := g.tracker.observe key offset
      delivered := (key, offset) :: g.delivered } := by
  have hext : g.Extends { g with
      tracker := g.tracker.observe key offset
      delivered := (key, offset) :: g.delivered } :=
    ⟨fun d hd => mem_cons_of_mem _ hd, fun k x hx => ⟨mem_cons_of_mem _ hx.1, hx.2⟩⟩
  -- a partition seen before keeps its state, a new one starts at the offset
  have hget : ∀ k, (g.tracker.observe key offset).parts.get k =
      if key = k then some (((g.tracker.parts.get key).getD {}).start offset)
      else g.tracker.parts.get k := fun k => get_set ..
  have hkept : ∀ k st, g.tracker.parts.get k = some st →
      (g.tracker.observe key offset).parts.get k = some st := by
    intro k st hst
    rw [hget]
    split_ifs with hk
    · subst hk
      rw [hst, getD_some, start, if_pos (h.tracks key st hst).started]
    · exact hst
  have hparts : ∀ k st, (g.tracker.observe key offset).parts.get k = some st →
      g.tracker.parts.get k = some st ∨
        k = key ∧ g.tracker.parts.get key = none ∧ st = ⟨offset, true, []⟩ := by
    intro k st hst
    cases hold : g.tracker.parts.get k with
    | some st0 =>
      rw [hkept k st0 hold] at hst
      exact .inl hst
    | none =>
      rw [hget] at hst
      split_ifs at hst with hk
      · subst hk
        rw [hold] at hst
        exact .inr ⟨rfl, hold, (some.inj hst).symm⟩
      · rw [hold] at hst
        cases hst
  refine ⟨keys_set_nodup h.keys_nodup, fun k st hst => ?_, fun k hk d hd => ?_,
    bounded_of_le h rfl fun k st hst => ⟨st, hkept k st hst, Nat.le_refl _⟩, h.sorted⟩
  · rcases hparts k st hst with hold | ⟨hk, hnone, rfl⟩
    · refine (h.tracks k st hold).mono hext fun d hd => ?_
      rcases mem_cons.1 hd with he | hd
      · obtain ⟨rfl, rfl⟩ := Prod.mk.inj he
        obtain ⟨floor, hmem, -⟩ := (h.tracks k st hold).floor
        exact .inr ⟨floor, hmem, Nat.le_of_lt (hord _ hmem rfl)⟩
      · exact .inl hd
    · subst hk
      refine ⟨rfl, ⟨offset, mem_cons_self, fun d hd => ?_, fun x hx hlt => ?_⟩, nofun⟩
      · rcases mem_cons.1 hd with he | hd
        · cases he
          exact Nat.le_refl _
        · exact absurd hd (h.unseen k hnone d)
      · exact absurd hlt (Nat.not_lt.2 hx)
  · rw [hget] at hk
    split_ifs at hk with hne
    rcases mem_cons.1 hd with he | hd
    · cases he
      exact hne rfl
    · exact h.unseen k hk d hd

theorem extends_settle (hnone : g.outcomes.get (key, offset) = none) (t : GenTracker)
    (outcome : Outcome) :
    g.Extends { g with tracker := t, outcomes := g.outcomes.set (key, offset) outcome } := by
  refine ⟨fun d hd => hd, fun k x hx => ⟨hx.1, ?_⟩⟩
  rw [get_set_ne _ _ fun he => ?_]
  · exact hx.2
  · rw [he, hx.2] at hnone
    cases hnone

theorem Inv.settle (h : g.Inv) (hnone : g.outcomes.get (key, offset) = none) (outcome : Outcome) :
    Inv { g with outcomes := g.outcomes.set (key, offset) outcome } :=
  ⟨h.keys_nodup, fun k st hst => (h.tracks k st hst).mono (extends_settle hnone g.tracker outcome)
      fun _ hd => .inl hd,
    h.unseen, h.bounded, h.sorted⟩

theorem Inv.complete (h : g.Inv) (hmem : (key, offset) ∈ g.delivered)
    (hdone : g.outcomes.get (key, offset) = some .done) :
    Inv { g with tracker := g.tracker.complete key offset } := by
  unfold GenTracker.complete
  split_ifs with hclosed
  · exact h
  · cases hget : g.tracker.parts.get key with
    | none => exact h
    | some st =>
      simp only
      split_ifs with hlt
      · exact h
      · have htracks := h.tracks key st hget
        obtain ⟨st', hst'⟩ : ∃ st', st' = advance (st.completed.insert offset).length
          { st with completed := st.completed.insert offset } := ⟨_, rfl⟩
        have hcompleted : ∀ x ∈ st.completed.insert offset, g.Done key x := by
          intro x hx
          rcases mem_insert_iff.1 hx with rfl | hx
          · exact ⟨hmem, hdone⟩
          · exact htracks.completed x hx
        have hnext : st.next ≤ st'.next := by
          rw [hst']
          exact next_le_advance _ { st with completed := st.completed.insert offset }
        have hadvanced : g.Tracks key st' := by
          obtain ⟨floor, hfloor, hmin, hprefix⟩ := htracks.floor
          subst hst'
          refine ⟨(advance_started _ _).trans htracks.started,
            ⟨floor, hfloor, hmin, fun x hx hxlt => ?_⟩,
            fun x hx => hcompleted x (completed_advance_subset _ _ hx)⟩
          by_cases hold : x < st.next
          · exact hprefix x hx hold
          · refine hcompleted x (mem_completed_of_lt_advance ?_ hxlt)
            exact Nat.not_lt.1 hold
        rw [← hst']
        refine ⟨keys_set_nodup h.keys_nodup, fun k s hs => ?_, fun k hk => ?_,
          bounded_of_le h rfl fun k s hs => ?_, h.sorted⟩
        · rw [get_set] at hs
          split_ifs at hs with hk
          · cases hs
            exact hk ▸ hadvanced.congr rfl rfl
          · exact (h.tracks k s hs).congr rfl rfl
        · rw [get_set] at hk
          split_ifs at hk
          exact h.unseen k hk
        · simp only [get_set]
          split_ifs with hk
          · subst hk
            cases hget.symm.trans hs
            exact ⟨st', rfl, hnext⟩
          · exact ⟨s, hs, Nat.le_refl _⟩

variable {offsets : AssocMap PartKey ℕ}

theorem get_snapshot (h : g.Inv)
    (hsnap : g.tracker.snapshot = some offsets) {o : ℕ} (ho : offsets.get key = some o) :
    ∃ st, g.tracker.parts.get key = some st ∧ st.next = o := by
  unfold GenTracker.snapshot at hsnap
  split_ifs at hsnap
  cases hsnap
  obtain ⟨⟨k, st⟩, hp, he⟩ := mem_map.1 (mem_of_get ho)
  cases he
  exact ⟨st, get_of_mem h.keys_nodup (mem_of_mem_filter hp), rfl⟩

theorem Inv.snapshot (h : g.Inv) (hloop : g.loop = .waiting)
    (hsnap : g.tracker.snapshot = some offsets) (last : Bool) :
    Inv { g with
      tracker := { g.tracker with dirty := false }
      loop := .committing offsets last } := by
  have hpromised : g.promised = g.commits := by rw [promised, hloop]
  refine ⟨h.keys_nodup, fun k st hst => (h.tracks k st hst).congr rfl rfl, h.unseen,
    fun offs hmem k o ho => ?_, fun k => ?_⟩
  · rcases mem_cons.1 hmem with rfl | hmem
    · obtain ⟨st, hst, hnext⟩ := get_snapshot h hsnap ho
      exact ⟨st, hst, Nat.le_of_eq hnext.symm⟩
    · exact h.bounded offs (hpromised ▸ hmem) k o ho
  · have hsorted := h.sorted k
    rw [hpromised] at hsorted
    change ((offsets :: g.commits).filterMap (·.get k)).Pairwise (· ≥ ·)
    cases ho : offsets.get k with
    | none =>
      rw [filterMap_cons, ho]
      exact hsorted
    | some o =>
      rw [filterMap_cons, ho]
      refine pairwise_cons.2 ⟨fun o' ho' => ?_, hsorted⟩
      obtain ⟨offs, hmem, ho'⟩ := mem_filterMap.1 ho'
      obtain ⟨st, hst, hnext⟩ := get_snapshot h hsnap ho
      obtain ⟨st', hst', hle⟩ := h.bounded offs (hpromised ▸ hmem) k o' ho'
      cases hst.symm.trans hst'
      exact hnext ▸ hle

theorem Inv.congr (h : g.Inv) (hparts : g'.tracker.parts = g.tracker.parts)
    (hdelivered : g'.delivered = g.delivered) (houtcomes : g'.outcomes = g.outcomes)
    (hpromised : g'.promised = g.promised) : g'.Inv := by
  refine ⟨hparts ▸ h.keys_nodup, fun k st hst => ?_, fun k hk d => ?_, fun offs hmem k o ho => ?_,
    hpromised ▸ h.sorted⟩
  · exact (h.tracks k st (hparts ▸ hst)).congr hdelivered houtcomes
  · exact hdelivered ▸ h.unseen k (hparts ▸ hk) d
  · exact hparts ▸ h.bounded offs (hpromised ▸ hmem) k o ho

/-- **Every step of a generation keeps the invariant.** -/
theorem Inv.step (h : g.Inv) {a : Action} (hstep : g.step a = some g') : g'.Inv := by
  cases a with
  | deliver key offset =>
    obtain ⟨hord, rfl⟩ := ite_some_none_eq_some.1 hstep
    exact h.deliver hord
  | settle key offset outcome =>
    simp only [Generation.step] at hstep
    split_ifs at hstep with hmem
    cases hout : g.outcomes.get (key, offset) with
    | some o =>
      rw [hout] at hstep
      cases hstep
      exact h
    | none =>
      rw [hout] at hstep
      cases hstep
      cases outcome with
      | failed => exact h.settle hout .failed
      | done => exact (h.settle hout .done).complete hmem (get_set_self _ _ _)
  | flush last =>
    simp only [Generation.step] at hstep
    split at hstep
    case h_2 => cases hstep
    case h_1 hloop =>
      split at hstep
      · cases hstep
        refine h.congr rfl rfl rfl ?_
        rw [promised, promised, hloop]
        cases last <;> rfl
      · rename_i offsets hsnap
        cases hstep
        exact h.snapshot hloop hsnap last
  | commit =>
    simp only [Generation.step] at hstep
    split at hstep
    case h_2 => cases hstep
    case h_1 offsets last hloop =>
      cases hstep
      refine h.congr rfl rfl rfl ?_
      rw [promised, promised, hloop]
      cases last <;> rfl
  | close =>
    simp only [Generation.step] at hstep
    split at hstep
    case h_2 => cases hstep
    case h_1 hloop =>
      cases hstep
      refine h.congr rfl rfl rfl ?_
      rw [promised, promised, hloop]

theorem inv_new : Inv {} where
  keys_nodup := nodup_nil
  tracks := nofun
  unseen _ _ _ := not_mem_nil
  bounded := nofun
  sorted _ := List.Pairwise.nil

theorem inv_of_reachable {s : List Generation} (h : subscription.Reachable [] s) :
    ∀ g ∈ s, g.Inv := by
  refine h.invariant (I := fun s => ∀ g ∈ s, Inv g) (fun s e s' hs hstep => ?_)
    fun g hg => absurd hg not_mem_nil
  cases e with
  | next =>
    cases hstep
    intro g hg
    rcases mem_append.1 hg with hg | hg
    · exact hs g hg
    · exact mem_singleton.1 hg ▸ inv_new
  | act gen a =>
    obtain ⟨g, hg, hstep⟩ := bind_eq_some_iff.1 hstep
    obtain ⟨g', hg', rfl⟩ := map_eq_some_iff.1 hstep
    intro g'' hmem
    rcases mem_or_eq_of_mem_set hmem with hmem | rfl
    · exact hs g'' hmem
    · exact (hs g (mem_of_getElem? hg)).step hg'

theorem committed_sublist (g : Generation) (key : PartKey) :
    (g.committed key).Sublist (g.promised.filterMap (·.get key)) := by
  refine List.Sublist.filterMap _ ?_
  unfold promised
  split
  · exact sublist_cons_self _ _
  · exact List.Sublist.refl _

end Generation

/-- **Committed offsets never cover unfinished work.**  In every state of a subscription and for
every partition of every generation, an offset passed to `CommitOffsets` is at most any delivered
offset that is not settled as done; every offset below it, from a delivered one on, was delivered
and settled as done; and the offsets committed never decrease. -/
theorem committed_covers_done {s : List Generation} (h : subscription.Reachable [] s)
    {g : Generation} (hg : g ∈ s) (key : PartKey) :
    (∀ o ∈ g.committed key, ∀ d, (key, d) ∈ g.delivered →
        g.outcomes.get (key, d) ≠ some .done → o ≤ d) ∧
      (∀ o ∈ g.committed key, ∀ d, (key, d) ∈ g.delivered → ∀ x, d ≤ x → x < o → g.Done key x) ∧
      (g.committed key).reverse.Pairwise (· ≤ ·) := by
  have hinv := Generation.inv_of_reachable h g hg
  have hcovers : ∀ o ∈ g.committed key, ∀ d, (key, d) ∈ g.delivered → ∀ x, d ≤ x → x < o →
      g.Done key x := by
    intro o ho d hd x hdx hxo
    have hmem := (g.committed_sublist key).subset ho
    obtain ⟨offsets, hoffs, ho⟩ := mem_filterMap.1 hmem
    obtain ⟨st, hst, hle⟩ := hinv.bounded offsets hoffs key o ho
    obtain ⟨floor, -, hmin, hdone⟩ := (hinv.tracks key st hst).floor
    exact hdone x (Nat.le_trans (hmin d hd) hdx) (Nat.lt_of_lt_of_le hxo hle)
  refine ⟨fun o ho d hd hout => ?_, hcovers, ?_⟩
  · by_contra hlt
    exact hout (hcovers o ho d hd d (Nat.le_refl d) (Nat.lt_of_not_le hlt)).2
  · exact pairwise_reverse.2 ((hinv.sorted key).sublist (g.committed_sublist key))

/-- A partition of the sample run. -/
def orders : PartKey := ⟨"orders", 0⟩

/-- Two messages finish out of order while the one between them fails. -/
def stalled : List Event :=
  [.next, .act 0 (.deliver orders 7), .act 0 (.deliver orders 8), .act 0 (.deliver orders 9),
    .act 0 (.settle orders 9 .done), .act 0 (.settle orders 8 .failed),
    .act 0 (.settle orders 7 .done), .act 0 (.flush false), .act 0 .commit]

theorem stalled_commits :
    (subscription.run [] stalled).map (·.map (·.committed orders)) = some [[8]] ∧
      ∀ s, subscription.run [] stalled = some s → ∀ g ∈ s, ∀ o ∈ g.committed orders, ∀ d,
        (orders, d) ∈ g.delivered → g.outcomes.get (orders, d) ≠ some .done → o ≤ d :=
  ⟨by decide, fun _ hs _ hg => (committed_covers_done ⟨stalled, hs⟩ hg orders).1⟩

end Omnicore.Transport
