import Mathlib.Data.Int.Notation
import Mathlib.Data.List.Basic

/-!
# Guarded application of a log

The entries of a log carry growing revisions.  A replica applies an entry whenever it receives it,
late, again or never, behind a guard on the revision it has seen: an older entry is dropped, one of
the same revision is applied once more.

## Main definitions

* `Replica`, `Replica.apply` : a value with the last revision seen, and the guarded application.
* `Covers` : applying an entry hides whether another one was applied before.
* `UpTo` : the replica holds what the entries up to some point of the log leave in order.
* `Redelivers` : deliveries of a log in order, with earlier entries once more in between.

## Main results

* `UpTo.apply` : a replica stays up to some point of the log under an entry that covers the ones it
  overtakes.
* `UpTo.value_eq` : one that has seen the last revision holds what the whole log leaves in order.
* `Redelivers.foldl_apply` : redelivered entries make no difference.
-/

namespace GuardedLog

open List

/-- A value with the last revision seen. -/
@[ext]
structure Replica (S : Type*) where
  revision : ℤ
  value : S

open Replica

variable {E S : Type*} (rev : E → ℤ) (act : E → S → S)

/-- Apply an entry in any case. -/
def Replica.force (r : Replica S) (e : E) : Replica S := ⟨rev e, act e r.value⟩

/-- Apply an entry unless it is older than what was seen. -/
def Replica.apply (r : Replica S) (e : E) : Replica S :=
  if r.revision ≤ rev e then r.force rev act e else r

/-- Applying `e` hides whether `f` was applied before. -/
def Covers (e f : E) : Prop := ∀ s, act e (act f s) = act e s

/-- The replica holds what the entries up to some point of the log leave in order. -/
def UpTo (init : Replica S) (log : List E) (r : Replica S) : Prop :=
  ∃ pre post, log = pre ++ post ∧ r = pre.foldl (force rev act) init

/-- The revisions of the log grow from the one of the initial replica. -/
structure Growing (init : Replica S) (log : List E) : Prop where
  pairwise : log.Pairwise fun e f => rev e < rev f
  init : ∀ e ∈ log, init.revision < rev e

variable {rev act} {init r : Replica S} {log : List E} {e : E}

theorem Replica.le_revision_apply :
    r.revision ≤ (r.apply rev act e).revision ∧ rev e ≤ (r.apply rev act e).revision := by
  rw [Replica.apply]
  split_ifs with h
  · exact ⟨h, Int.le_refl _⟩
  · exact ⟨Int.le_refl _, by omega⟩

theorem Replica.apply_apply (h : Covers act e e) :
    (r.apply rev act e).apply rev act e = r.apply rev act e := by
  by_cases hle : r.revision ≤ rev e
  · have hforce : r.apply rev act e = r.force rev act e := if_pos hle
    rw [hforce]
    exact (if_pos (Int.le_refl (rev e))).trans (Replica.ext rfl (h _))
  · have hkeep : r.apply rev act e = r := if_neg hle
    rw [hkeep, hkeep]

/-- Covered entries make no difference. -/
theorem act_foldl_force {mid : List E} (h : ∀ f ∈ mid, Covers act e f) :
    act e (mid.foldl (force rev act) r).value = act e r.value := by
  induction mid generalizing r with
  | nil => rfl
  | cons f mid ih =>
    rw [foldl_cons, ih (fun g hg => h g (mem_cons_of_mem _ hg))]
    exact h f mem_cons_self _

/-- Everything after the point is newer than what was seen. -/
theorem Growing.revision_lt {pre post : List E} (hlog : Growing rev init (pre ++ post))
    (he : e ∈ post) : (pre.foldl (force rev act) init).revision < rev e := by
  rcases eq_nil_or_concat pre with rfl | ⟨pre, f, rfl⟩
  · exact hlog.init e he
  · rw [concat_eq_append, foldl_append]
    exact (pairwise_append.1 hlog.pairwise).2.2 f (by simp) e he

/-- An entry among those seen that is not below the replica is the last of them. -/
theorem Growing.last_of_le {pre post : List E} (hlog : Growing rev init (pre ++ post))
    (he : e ∈ pre) (hle : (pre.foldl (force rev act) init).revision ≤ rev e) :
    ∃ before, pre = before ++ [e] := by
  obtain ⟨before, rest, rfl⟩ := append_of_mem he
  rcases eq_nil_or_concat rest with rfl | ⟨rest, f, rfl⟩
  · exact ⟨before, rfl⟩
  · have hpre := (pairwise_append.1 hlog.pairwise).1
    have hlt := (pairwise_cons.1 (pairwise_append.1 hpre).2.1).1 f (by simp)
    rw [concat_eq_append, ← cons_append, ← append_assoc, foldl_append] at hle
    simp only [foldl_cons, foldl_nil, force] at hle
    omega

theorem UpTo.start (log : List E) : UpTo rev act init log init := ⟨[], log, rfl, rfl⟩

section

variable (h : UpTo rev act init log r) (hlog : Growing rev init log)
include h hlog

/-- **Step.** -/
theorem UpTo.apply (he : e ∈ log) (hself : Covers act e e)
    (hcov : ∀ f ∈ log, r.revision < rev f → rev f < rev e → Covers act e f) :
    UpTo rev act init log (r.apply rev act e) := by
  obtain ⟨pre, post, rfl, rfl⟩ := h
  rw [Replica.apply]
  split_ifs with hle
  · rcases mem_append.1 he with he | he
    · -- seen already: it is the last one
      obtain ⟨before, rfl⟩ := hlog.last_of_le he hle
      refine ⟨before ++ [e], post, rfl, ?_⟩
      rw [foldl_append]
      exact Replica.ext rfl (hself _)
    · -- a later one, which covers what lies between
      obtain ⟨mid, post, rfl⟩ := append_of_mem he
      refine ⟨pre ++ mid ++ [e], post, by simp, ?_⟩
      rw [foldl_append, foldl_append]
      refine Replica.ext rfl (act_foldl_force (fun f hf => ?_)).symm
      refine hcov f (by simp [hf]) (hlog.revision_lt (by simp [hf])) ?_
      have hpost := (pairwise_append.1 hlog.pairwise).2.1
      exact (pairwise_append.1 hpost).2.2 f hf e mem_cons_self
  · exact ⟨pre, post, rfl, rfl⟩

/-- The last entry a replica has seen is the one of its revision. -/
theorem UpTo.eq_force (he : e ∈ log) (hrev : r.revision = rev e) :
    ∃ r0 : Replica S, r = r0.force rev act e := by
  obtain ⟨pre, post, rfl, rfl⟩ := h
  rcases mem_append.1 he with he | he
  · obtain ⟨before, rfl⟩ := hlog.last_of_le he (Int.le_of_eq hrev)
    refine ⟨before.foldl (force rev act) init, ?_⟩
    rw [foldl_append]
    rfl
  · have hlt : (pre.foldl (force rev act) init).revision < rev e := hlog.revision_lt he
    omega

/-- A replica that has seen every revision holds what the log leaves in order. -/
theorem UpTo.value_eq (hall : ∀ e ∈ log, rev e ≤ r.revision) :
    r = log.foldl (force rev act) init := by
  obtain ⟨pre, post, rfl, rfl⟩ := h
  cases post with
  | nil => rw [append_nil]
  | cons e post =>
    have hlt : (pre.foldl (force rev act) init).revision < rev e := hlog.revision_lt mem_cons_self
    have hle := hall e (by simp)
    omega

end

/-- The entries `todo` are delivered in order after the entries `done`; in between, entries
delivered before are delivered again. -/
inductive Redelivers : List E → List E → List E → Prop
  | nil (done : List E) : Redelivers done [] []
  | next {done todo deliveries : List E} {e : E}
      (h : Redelivers (done ++ [e]) todo deliveries) : Redelivers done (e :: todo) (e :: deliveries)
  | again {done todo deliveries : List E} {e : E} (he : e ∈ done)
      (h : Redelivers done todo deliveries) : Redelivers done todo (e :: deliveries)

theorem Redelivers.refl (done log : List E) : Redelivers done log log := by
  induction log generalizing done with
  | nil => exact .nil done
  | cons e log ih => exact .next (ih _)

variable {done todo deliveries : List E}

theorem Redelivers.mem (h : Redelivers done todo deliveries) :
    ∀ e ∈ deliveries, e ∈ done ++ todo := by
  induction h with
  | nil => exact fun _ he => absurd he not_mem_nil
  | next _ ih =>
    rintro f (_ | ⟨_, hf⟩)
    · simp
    · simpa using ih f hf
  | again he _ ih =>
    rintro f (_ | ⟨_, hf⟩)
    · exact mem_append_left _ he
    · exact ih f hf

/-- An entry of the log that is applied once more changes nothing. -/
theorem apply_foldl_force (hlog : Growing rev init log) (he : e ∈ log) (hself : Covers act e e) :
    (log.foldl (force rev act) init).apply rev act e = log.foldl (force rev act) init := by
  -- the last entry has the greatest revision
  have hseen : ∀ f ∈ log, rev f ≤ (log.foldl (force rev act) init).revision := by
    rcases eq_nil_or_concat log with rfl | ⟨pre, g, rfl⟩
    · exact fun _ hf => absurd hf not_mem_nil
    · intro f hf
      rw [concat_eq_append] at hf ⊢
      rw [foldl_append]
      rcases mem_append.1 hf with hf | hf
      · have hpair := hlog.pairwise
        rw [concat_eq_append] at hpair
        exact Int.le_of_lt ((pairwise_append.1 hpair).2.2 f hf g (by simp))
      · obtain rfl := mem_singleton.1 hf
        exact Int.le_refl _
  have hup : UpTo rev act init log (log.foldl (force rev act) init) := ⟨log, [], by simp, rfl⟩
  refine (hup.apply hlog he hself fun f hf hlt _ => ?_).value_eq hlog fun f hf => ?_
  · have := hseen f hf
    omega
  · exact Int.le_trans (hseen f hf) le_revision_apply.1

/-- **Redelivered entries** make no difference. -/
theorem Redelivers.foldl_apply
    (h : Redelivers done todo deliveries) (hlog : Growing rev init (done ++ todo))
    (hself : ∀ e ∈ done ++ todo, Covers act e e) :
    deliveries.foldl (Replica.apply rev act) (done.foldl (force rev act) init) =
      (done ++ todo).foldl (force rev act) init := by
  induction h with
  | nil done => rw [append_nil]; rfl
  | @next done todo deliveries e _ ih =>
    have hlt : (done.foldl (force rev act) init).revision < rev e := hlog.revision_lt mem_cons_self
    have hforce : (done.foldl (force rev act) init).apply rev act e =
        (done ++ [e]).foldl (force rev act) init := by
      rw [foldl_append]
      exact if_pos (Int.le_of_lt hlt)
    rw [foldl_cons, hforce, append_cons done e todo]
    rw [append_cons done e todo] at hlog hself
    exact ih hlog hself
  | @again done todo deliveries e he _ ih =>
    have hdone : Growing rev init done :=
      ⟨(pairwise_append.1 hlog.pairwise).1, fun f hf => hlog.init f (by simp [hf])⟩
    rw [foldl_cons, apply_foldl_force hdone he (hself e (by simp [he]))]
    exact ih hlog hself

end GuardedLog
