import Mathlib.Data.List.Basic
import Mathlib.Order.Nat

/-!
# Versioned registers

A register whose writes advance a revision, with the history of its versions and the snapshots that
were published about it.  A transaction writes one content, possibly several times, and publishes
one snapshot under a revision of its own.  When the snapshot is the content the transaction wrote,
the snapshots stay true: each is the version of its revision, and the newest one is the current
content.

## Main results

* `Register.Coherent.transact` : every transaction keeps revisions and history in step.
* `Register.faithful_transact_iff` : it keeps the snapshots true exactly if it publishes what it
  wrote.
* `Register.Faithful.last` : the newest snapshot is the current content.
-/

/-- A register: its current version, all its versions, and the snapshots published about it, each
with its revision. -/
structure Register (V : Type*) where
  current : Option (ℕ × V) := none
  history : List (ℕ × V) := []
  published : List (ℕ × V) := []

namespace Register

variable {V : Type*}

/-- The current revision, zero before the first write. -/
def revision (r : Register V) : ℕ := (r.current.map Prod.fst).getD 0

/-- Write a content under the next revision. -/
def write (r : Register V) (v : V) : Register V :=
  { r with
    current := some (r.revision + 1, v)
    history := r.history ++ [(r.revision + 1, v)] }

/-- Publish a snapshot. -/
def publish (r : Register V) (n : ℕ) (v : V) : Register V :=
  { r with published := r.published ++ [(n, v)] }

/-- Write a content, once more before or after it if asked to, and publish a snapshot under the
revision of the write between the two. -/
def transact (r : Register V) (v : V) (before after : Bool) (p : V) : Register V :=
  let r₁ := if before then r.write v else r
  let r₂ := r₁.write v
  let r₃ := if after then r₂.write v else r₂
  r₃.publish r₂.revision p

/-- Revisions, versions and snapshots in step. -/
structure Coherent (r : Register V) : Prop where
  history_le : ∀ h ∈ r.history, h.1 ≤ r.revision
  functional : ∀ h ∈ r.history, ∀ h' ∈ r.history, h.1 = h'.1 → h = h'
  published_le : ∀ p ∈ r.published, p.1 ≤ r.revision
  /-- Nothing was written after the newest snapshot but the content of its time. -/
  settled : ∀ h ∈ r.history, (∀ p ∈ r.published, p.1 ≤ h.1) → ∃ n, r.current = some (n, h.2)

/-- Every snapshot is the version of its revision. -/
def Faithful (r : Register V) : Prop := ∀ p ∈ r.published, p ∈ r.history

/-- `r'` is `r` after some writes of `v`. -/
structure Extends (r : Register V) (v : V) (r' : Register V) : Prop where
  le : r.revision ≤ r'.revision
  old : ∀ h ∈ r.history, h ∈ r'.history
  new : ∀ h ∈ r'.history, h ∈ r.history ∨ r.revision < h.1 ∧ h.1 ≤ r'.revision ∧ h.2 = v
  published : r'.published = r.published
  current : ∀ n, r.current = some (n, v) → ∃ k, r'.current = some (k, v)

variable {r : Register V}

theorem extends_refl (v : V) : r.Extends v r :=
  ⟨le_rfl, fun _ h => h, fun _ h => .inl h, rfl, fun n h => ⟨n, h⟩⟩

theorem extends_write (v : V) : r.Extends v (r.write v) := by
  refine ⟨Nat.le_succ _, fun h hh => List.mem_append_left _ hh, fun h hh => ?_, rfl,
    fun n _ => ⟨_, rfl⟩⟩
  rcases List.mem_append.1 hh with hh | hh
  · exact .inl hh
  · obtain rfl := List.mem_singleton.1 hh
    exact .inr ⟨Nat.lt_succ_self _, le_rfl, rfl⟩

theorem extends_ite (v : V) (again : Bool) : r.Extends v (if again then r.write v else r) := by
  split_ifs
  · exact extends_write v
  · exact extends_refl v

variable {r : Register V}

theorem Extends.trans {s t : Register V} {v : V} (h : r.Extends v s) (h' : s.Extends v t) :
    r.Extends v t where
  le := h.le.trans h'.le
  old q hq := h'.old q (h.old q hq)
  new q hq := by
    rcases h'.new q hq with hq | ⟨hlt, hle, hv⟩
    · exact (h.new q hq).imp_right fun ⟨hlt, hle, hv⟩ => ⟨hlt, hle.trans h'.le, hv⟩
    · exact .inr ⟨h.le.trans_lt hlt, hle, hv⟩
  published := h'.published.trans h.published
  current n hn := by
    obtain ⟨k, hk⟩ := h.current n hn
    exact h'.current k hk

/-- What a transaction leaves: versions of the written content under new revisions. -/
theorem transact_spec (r : Register V) (v : V) (before after : Bool) (p : V) :
    ∃ n k, r.revision < n ∧ n ≤ k ∧
      (r.transact v before after p).current = some (k, v) ∧
      (n, v) ∈ (r.transact v before after p).history ∧
      (∀ h ∈ r.history, h ∈ (r.transact v before after p).history) ∧
      (∀ h ∈ (r.transact v before after p).history,
        h ∈ r.history ∨ r.revision < h.1 ∧ h.1 ≤ k ∧ h.2 = v) ∧
      (r.transact v before after p).published = r.published ++ [(n, p)] := by
  obtain ⟨r1, h1, hr1⟩ : ∃ r1, r.Extends v r1 ∧ r1 = if before then r.write v else r :=
    ⟨_, extends_ite v before, rfl⟩
  obtain ⟨r3, h3, hr3⟩ : ∃ r3, (r1.write v).Extends v r3 ∧
      r3 = if after then (r1.write v).write v else r1.write v :=
    ⟨_, extends_ite v after, rfl⟩
  have ht : r.transact v before after p = r3.publish (r1.write v).revision p := by
    simp [transact, ← hr1, ← hr3]
  have h := (h1.trans (extends_write v)).trans h3
  obtain ⟨k, hk⟩ := h3.current (r1.revision + 1) rfl
  have hrev : r3.revision = k := by simp [revision, hk]
  rw [ht]
  refine ⟨(r1.write v).revision, k, ?_, hrev ▸ h3.le, hk, h3.old _ (by simp [write, revision]),
    h.old, fun q hq => ?_, by rw [publish, h.published]⟩
  · exact Nat.lt_succ_of_le h1.le
  · exact hrev ▸ h.new q hq

/-- A transaction keeps the register coherent. -/
theorem Coherent.transact (hr : r.Coherent) (v : V) (before after : Bool) (p : V) :
    (r.transact v before after p).Coherent := by
  obtain ⟨n, k, hn, hk, hcur, -, hold, hnew, hpub⟩ := r.transact_spec v before after p
  have hrev : (r.transact v before after p).revision = k := by simp [revision, hcur]
  refine ⟨fun h hh => ?_, fun h hh h' hh' he => ?_, fun q hq => ?_, fun h hh hlast => ⟨k, ?_⟩⟩
  · rcases hnew h hh with hh | ⟨-, hle, -⟩
    · have := hr.history_le h hh
      omega
    · exact hrev ▸ hle
  · -- revisions of old and of new versions never meet
    rcases hnew h hh with hh | ⟨hlt, -, hv⟩ <;> rcases hnew h' hh' with hh' | ⟨hlt', -, hv'⟩
    · exact hr.functional h hh h' hh' he
    · have := hr.history_le h hh
      omega
    · have := hr.history_le h' hh'
      omega
    · exact Prod.ext he (hv.trans hv'.symm)
  · rw [hpub, List.mem_append, List.mem_singleton] at hq
    rcases hq with hq | rfl
    · have := hr.published_le q hq
      omega
    · omega
  · have hle : n ≤ h.1 := hlast (n, p) (by simp [hpub])
    rcases hnew h hh with hh | ⟨-, -, hv⟩
    · have := hr.history_le h hh
      omega
    · rw [hcur, hv]

/-- **Step.** The snapshots stay true exactly if the transaction publishes what it wrote. -/
theorem faithful_transact_iff (hr : r.Coherent) (hf : r.Faithful) (v : V) (before after : Bool)
    (p : V) : (r.transact v before after p).Faithful ↔ p = v := by
  obtain ⟨n, k, hn, -, -, hmem, hold, hnew, hpub⟩ := r.transact_spec v before after p
  constructor
  · intro h
    rcases hnew _ (h (n, p) (by simp [hpub])) with hh | ⟨-, -, hv⟩
    · have := hr.history_le _ hh
      omega
    · exact hv
  · rintro rfl q hq
    rw [hpub, List.mem_append, List.mem_singleton] at hq
    rcases hq with hq | rfl
    · exact hold q (hf q hq)
    · exact hmem

/-- The newest snapshot of a register whose snapshots are true is its current content. -/
theorem Faithful.last (hf : r.Faithful) (hr : r.Coherent) {p : ℕ × V} (hp : p ∈ r.published)
    (hlast : ∀ q ∈ r.published, q.1 ≤ p.1) : ∃ n, r.current = some (n, p.2) :=
  hr.settled p (hf p hp) hlast

end Register
