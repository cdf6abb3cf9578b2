import Mathlib.Data.List.Basic
import Omnicore.Lib.Machine

/-!
# Transactions under read committed

A transaction is a program of statements.  Each statement sees the committed store with the
transaction's own writes on top, waits for the row locks it needs, and either fails, which rolls the
transaction back, or adds a write and goes on with what it has read.  Locks are held to the end, and
a commit puts the writes of the transaction on the store as it is committed then.

Statements of different transactions interleave in every way the locks allow.

## Main definitions

* `Program` : the statements of a transaction; `Program.run` runs them alone.
* `System.machine` : the interleaved execution of transactions.
* `Modular` : the obligations of an invariant that is split over the transactions.

## Main results

* `Modular.run` : such an invariant holds at the end of every run.
* `Transaction.finish_taken` : a statement does not change where its transaction ends when it runs
  alone from there on.
-/

namespace ReadCommitted

open Option List

variable {W K D L E : Type}

/-- The statements of a transaction.  A statement of a kind `kind` names the locks it needs, fails
with the error of `check`, or adds `write` and goes on with `next`, all as functions of the store it
sees. -/
inductive Program (K D L E : Type) where
  | commit
  | stmt (kind : K) (locks : D → List L) (check : D → Option E) (write : D → D → D)
      (next : D → Program K D L E)

namespace Program

/-- The kind of the next statement. -/
def kind : Program K D L E → Option K
  | .commit => none
  | .stmt kind .. => some kind

/-- The program alone on a store. -/
def run : Program K D L E → D → Except E D
  | .commit, d => .ok d
  | .stmt _ _ check write next, d =>
    match check d with
    | some e => .error e
    | none => (next d).run (write d d)

/-- Every statement of the program, by its kind and its write, meets `Q`. -/
def Every (Q : K → (D → D → D) → Prop) : Program K D L E → Prop
  | .commit => True
  | .stmt kind _ _ write next => Q kind write ∧ ∀ v, (next v).Every Q

/-- No statement of the program changes `f`. -/
def Preserves {X : Type} (f : D → X) (p : Program K D L E) : Prop :=
  p.Every fun _ write => ∀ v d, f (write v d) = f d

/-- A statement that reads: it needs no lock, and fails on an error of the reading. -/
def read (kind : K) (test : D → Except E Unit) (next : D → Program K D L E) : Program K D L E :=
  .stmt kind (fun _ => []) (fun v => match test v with | .error e => some e | .ok _ => none)
    (fun _ d => d) next

/-- A statement that writes and neither fails nor chooses how to go on. -/
def write (kind : K) (locks : D → List L) (w : D → D → D) (next : Program K D L E) :
    Program K D L E :=
  .stmt kind locks (fun _ => none) w fun _ => next

theorem run_commit (d : D) : (.commit : Program K D L E).run d = .ok d := rfl

theorem run_read (kind : K) (test : D → Except E Unit) (next : D → Program K D L E) (d : D) :
    (read kind test next).run d = test d >>= fun _ => (next d).run d := by
  rw [read, run]
  cases test d <;> rfl

theorem run_write (kind : K) (locks : D → List L) (w : D → D → D) (next : Program K D L E) (d : D) :
    (write kind locks w next).run d = next.run (w d d) := rfl

variable {Q : K → (D → D → D) → Prop}

theorem every_read {kind : K} {test : D → Except E Unit}
    {next : D → Program K D L E} (hQ : Q kind fun _ d => d) (hnext : ∀ v, (next v).Every Q) :
    (read kind test next).Every Q :=
  ⟨hQ, hnext⟩

theorem every_write {kind : K} {locks : D → List L}
    {w : D → D → D} {next : Program K D L E} (hQ : Q kind w) (hnext : next.Every Q) :
    (write kind locks w next).Every Q :=
  ⟨hQ, fun _ => hnext⟩

end Program

/-- A transaction: the work it does, the statements ahead of it, its writes so far, the locks it
holds, and how it ended. -/
structure Transaction (W K D L E : Type) where
  work : W
  program : Program K D L E
  writes : D → D := id
  held : List L := []
  outcome : Option (Except E Unit) := none

namespace Transaction

/-- The transaction after a statement that did not fail. -/
def taken (t : Transaction W K D L E) (c : D) (locks : D → List L) (write : D → D → D)
    (next : D → Program K D L E) : Transaction W K D L E :=
  { t with
    program := next (t.writes c)
    writes := fun d => write (t.writes c) (t.writes d)
    held := t.held ++ locks (t.writes c) }

/-- The store the transaction leaves when it runs alone from here on. -/
def finish (t : Transaction W K D L E) (c : D) : Except E D := t.program.run (t.writes c)

variable {t : Transaction W K D L E} {check : D → Option E} {next : D → Program K D L E}

/-- A statement does not change where its transaction ends. -/
theorem finish_taken {c : D} {kind : K} {locks : D → List L} {write : D → D → D}
    (hp : t.program = .stmt kind locks check write next) (hc : check (t.writes c) = none) :
    (t.taken c locks write next).finish c = t.finish c := by
  rw [finish, finish, hp, Program.run, hc]
  rfl

/-- What no statement of the program changes, no statement of the transaction changes. -/
theorem preserves_taken {X : Type} {f : D → X} {kind : K} {locks : D → List L} {write : D → D → D}
    (hp : t.program = .stmt kind locks check write next) (h : t.program.Preserves f) (c : D) :
    (t.taken c locks write next).program.Preserves f ∧
      ∀ d, f ((t.taken c locks write next).writes d) = f (t.writes d) := by
  rw [hp] at h
  exact ⟨h.2 _, fun d => h.1 _ _⟩

end Transaction

/-- A store with its transactions and the works committed on it, in order. -/
structure Store (W K D L E : Type) where
  committed : D
  transactions : List (Transaction W K D L E) := []
  history : List W := []

open Store

/-- A transaction starts, takes its next statement or commits, or is stopped from outside. -/
inductive Action (W E : Type) where
  | start (w : W)
  | exec (i : ℕ)
  | abort (i : ℕ) (e : E)
  deriving DecidableEq, Repr

namespace Store

/-- The `i`th transaction, while it is open. -/
def Open (s : Store W K D L E) (i : ℕ) (t : Transaction W K D L E) : Prop :=
  s.transactions[i]? = some t ∧ t.outcome = none

/-- Replace the `i`th transaction. -/
def replace (s : Store W K D L E) (i : ℕ) (t : Transaction W K D L E) : Store W K D L E :=
  { s with transactions := s.transactions.set i t }

/-- End the `i`th transaction. -/
def close (s : Store W K D L E) (i : ℕ) (t : Transaction W K D L E) (r : Except E Unit) :
    Store W K D L E :=
  s.replace i { t with outcome := some r }

/-- An open transaction other than the `i`th holds the lock. -/
def heldElsewhere [DecidableEq L] (s : Store W K D L E) (i : ℕ) (l : L) : Bool :=
  s.transactions.zipIdx.any fun p => p.2 ≠ i && p.1.outcome.isNone && decide (l ∈ p.1.held)

variable {s : Store W K D L E} {u : Transaction W K D L E}

variable {i j : ℕ} {t : Transaction W K D L E}

theorem notMem_held_of_not_heldElsewhere [DecidableEq L] {l : L} (h : s.heldElsewhere i l = false)
    (hji : j ≠ i) (hu : s.Open j u) : l ∉ u.held := by
  intro hl
  have hmem : (u, j) ∈ s.transactions.zipIdx := mk_mem_zipIdx_iff_getElem?.2 hu.1
  have := any_eq_false.1 h _ hmem
  simp [hji, hu.2, hl] at this

theorem Open.lt (h : s.Open i t) :
    i < s.transactions.length := (List.getElem?_eq_some_iff.1 h.1).1

/-- The open transactions after one of them moved: the others are as they were. -/
theorem open_replace {t' : Transaction W K D L E} (h : (s.replace i t').Open j u) :
    (j = i ∧ u = t' ∧ t'.outcome = none) ∨ (j ≠ i ∧ s.Open j u) := by
  obtain ⟨hj, hopen⟩ := h
  rw [replace, getElem?_set] at hj
  split_ifs at hj with hij hlt
  · obtain rfl := some.inj hj
    exact .inl ⟨hij.symm, rfl, hopen⟩
  · exact .inr ⟨fun h => hij h.symm, hj, hopen⟩

/-- A transaction that ended is not open, and the others are as they were. -/
theorem open_close {r : Except E Unit} (h : (s.close i t r).Open j u) : j ≠ i ∧ s.Open j u := by
  rcases open_replace h with ⟨-, -, hnone⟩ | h
  · cases hnone
  · exact h

end Store

/-- The transactions of a system: the program of each work, and when a work may start. -/
structure System (W K D L E : Type) where
  program : W → Program K D L E
  admits : Store W K D L E → W → Bool

namespace System

variable (S : System W K D L E)

/-- The transaction of a work before its first statement. -/
def fresh (w : W) : Transaction W K D L E := { work := w, program := S.program w }

variable [DecidableEq L]

/-- One step of the `i`th transaction. -/
def exec (s : Store W K D L E) (i : ℕ) (t : Transaction W K D L E) : Option (Store W K D L E) :=
  match t.program with
  | .commit => some
      { s.close i t (.ok ()) with
        committed := t.writes s.committed
        history := s.history ++ [t.work] }
  | .stmt _ locks check write next =>
    if (locks (t.writes s.committed)).any (s.heldElsewhere i) then none
    else match check (t.writes s.committed) with
      | some e => some (s.close i t (.error e))
      | none => some (s.replace i (t.taken s.committed locks write next))

/-- The interleaved execution of the transactions. -/
def machine : Machine (Store W K D L E) (Action W E) where
  step s
    | .start w =>
      if S.admits s w then some { s with transactions := s.transactions ++ [S.fresh w] } else none
    | .exec i => s.transactions[i]?.bind fun t => if t.outcome.isNone then exec s i t else none
    | .abort i e => s.transactions[i]?.bind fun t =>
      if t.outcome.isNone then some (s.close i t (.error e)) else none

/-- The steps of the machine. -/
inductive Move (s : Store W K D L E) : Action W E → Store W K D L E → Prop
  | start {w : W} (hw : S.admits s w = true) :
      Move s (.start w) { s with transactions := s.transactions ++ [S.fresh w] }
  | fail {i : ℕ} {t : Transaction W K D L E} {e : E} {kind : K} {locks : D → List L}
      {check : D → Option E} {write : D → D → D} {next : D → Program K D L E} (ht : s.Open i t)
      (hp : t.program = .stmt kind locks check write next)
      (hc : check (t.writes s.committed) = some e) :
      Move s (.exec i) (s.close i t (.error e))
  | take {i : ℕ} {t : Transaction W K D L E} {kind : K} {locks : D → List L}
      {check : D → Option E} {write : D → D → D} {next : D → Program K D L E} (ht : s.Open i t)
      (hp : t.program = .stmt kind locks check write next)
      (hc : check (t.writes s.committed) = none)
      (hfree : ∀ l ∈ locks (t.writes s.committed), s.heldElsewhere i l = false) :
      Move s (.exec i) (s.replace i (t.taken s.committed locks write next))
  | commit {i : ℕ} {t : Transaction W K D L E} (ht : s.Open i t) (hp : t.program = .commit) :
      Move s (.exec i)
        { s.close i t (.ok ()) with
          committed := t.writes s.committed
          history := s.history ++ [t.work] }
  | abort {i : ℕ} {t : Transaction W K D L E} {e : E} (ht : s.Open i t) :
      Move s (.abort i e) (s.close i t (.error e))

theorem move_of_step {s s' : Store W K D L E} {a : Action W E}
    (h : S.machine.step s a = some s') : S.Move s a s' := by
  cases a with
  | start w =>
    simp only [machine] at h
    split_ifs at h with hw
    exact some.inj h ▸ .start hw
  | exec i =>
    simp only [machine, bind_eq_some_iff] at h
    obtain ⟨t, ht, h⟩ := h
    split_ifs at h with hopen
    have hopen : s.Open i t := ⟨ht, isNone_iff_eq_none.1 hopen⟩
    rw [exec] at h
    split at h
    · rename_i hp
      exact some.inj h ▸ .commit hopen hp
    · rename_i hp
      split_ifs at h with hlocks
      split at h
      · rename_i hc
        exact some.inj h ▸ .fail hopen hp hc
      · rename_i hc
        refine some.inj h ▸ .take hopen hp hc fun l hl => ?_
        simpa using any_eq_false.1 (by simpa using hlocks) l hl
  | abort i e =>
    simp only [machine, bind_eq_some_iff] at h
    obtain ⟨t, ht, h⟩ := h
    split_ifs at h with hopen
    exact some.inj h ▸ .abort ⟨ht, isNone_iff_eq_none.1 hopen⟩

end System

/-! ### Invariants split over the transactions -/

/-- An invariant in three parts: of the committed store and the history, of each open transaction
against the committed store, and of each two open transactions. -/
structure Split (G : D → List W → Prop) (P : D → Transaction W K D L E → Prop)
    (R : Transaction W K D L E → Transaction W K D L E → Prop) (s : Store W K D L E) : Prop where
  store : G s.committed s.history
  each : ∀ {i t}, s.Open i t → P s.committed t
  pair : ∀ {i j t u}, i ≠ j → s.Open i t → s.Open j u → R t u ∧ ∀ l ∈ t.held, l ∉ u.held

/-- What each step owes to a split invariant, for steps that meet `C`. -/
structure Modular (S : System W K D L E) (C : Store W K D L E → Action W E → Prop)
    (G : D → List W → Prop) (P : D → Transaction W K D L E → Prop)
    (R : Transaction W K D L E → Transaction W K D L E → Prop) : Prop where
  symm : ∀ {t u}, R t u → R u t
  start : ∀ {s w}, S.admits s w = true → C s (.start w) → G s.committed s.history →
    P s.committed (S.fresh w)
  start_pair : ∀ {s w i t}, S.admits s w = true → s.Open i t → R t (S.fresh w)
  take : ∀ {c h t kind locks check write next}, G c h → P c t →
    t.program = .stmt kind locks check write next → check (t.writes c) = none →
    P c (t.taken c locks write next)
  take_pair : ∀ {s i j t u kind locks check write next}, i ≠ j → s.Open i t → s.Open j u →
    C s (.exec i) → P s.committed t → P s.committed u → R t u →
    t.program = .stmt kind locks check write next → check (t.writes s.committed) = none →
    R (t.taken s.committed locks write next) u
  commit : ∀ {c h t}, G c h → P c t → t.program = .commit → G (t.writes c) (h ++ [t.work])
  interfere : ∀ {c h t u}, G c h → P c t → P c u → R t u → (∀ l ∈ t.held, l ∉ u.held) →
    t.program = .commit → P (t.writes c) u

variable {S : System W K D L E} {C : Store W K D L E → Action W E → Prop}
  {G : D → List W → Prop} {P : D → Transaction W K D L E → Prop}
  {R : Transaction W K D L E → Transaction W K D L E → Prop}

namespace Split

theorem close_pair {s : Store W K D L E} {i j k : ℕ} {t u v : Transaction W K D L E}
    {r : Except E Unit} (hs : Split G P R s) (hjk : j ≠ k) (hu : (s.close i t r).Open j u)
    (hv : (s.close i t r).Open k v) : R u v ∧ ∀ l ∈ u.held, l ∉ v.held :=
  hs.pair hjk (open_close hu).2 (open_close hv).2

/-- Before the first transaction, only the store has a part. -/
theorem init {c : D} (h : G c []) : Split G P R ({ committed := c } : Store W K D L E) :=
  ⟨h, fun ht => absurd ht.1 (by simp), fun _ ht => absurd ht.1 (by simp)⟩

end Split

namespace Modular

variable [DecidableEq L]

/-- **Step.** A step that meets `C` keeps a split invariant. -/
theorem step (M : Modular S C G P R) {s s' : Store W K D L E} {a : Action W E}
    (hs : Split G P R s) (hC : C s a) (h : S.Move s a s') : Split G P R s' := by
  cases h with
  | @start w hw =>
    -- a transaction of the new list is an old one or the fresh one, which holds nothing
    have hcases : ∀ {i t}, Store.Open { s with transactions := s.transactions ++ [S.fresh w] } i t →
        s.Open i t ∨ (i = s.transactions.length ∧ t = S.fresh w) := by
      rintro i t ⟨hi, ht⟩
      simp only [getElem?_append, getElem?_singleton] at hi
      split_ifs at hi with hlt hlast
      · exact .inl ⟨hi, ht⟩
      · exact .inr ⟨by omega, (some.inj hi).symm⟩
    refine ⟨hs.store, fun ht => ?_, fun hij ht hu => ?_⟩
    · rcases hcases ht with ht | ⟨-, rfl⟩
      · exact hs.each ht
      · exact M.start (s := s) hw hC hs.store
    · rcases hcases ht with ht | ⟨rfl, rfl⟩ <;> rcases hcases hu with hu | ⟨rfl, rfl⟩
      · exact hs.pair hij ht hu
      · exact ⟨M.start_pair hw ht, fun l _ => not_mem_nil⟩
      · exact ⟨M.symm (M.start_pair hw hu), fun l hl => absurd hl not_mem_nil⟩
      · exact absurd rfl hij
  | fail | abort => exact ⟨hs.store, fun hu => hs.each (open_close hu).2, hs.close_pair⟩
  | @take i t kind locks check write next ht hp hc hfree =>
    have hlocks : ∀ {j u}, i ≠ j → s.Open j u →
        ∀ l ∈ (t.taken s.committed locks write next).held, l ∉ u.held := by
      intro j u hij hu l hl
      rcases mem_append.1 hl with hl | hl
      · exact (hs.pair hij ht hu).2 l hl
      · exact notMem_held_of_not_heldElsewhere (hfree l hl) hij.symm hu
    have hpair : ∀ {j u}, i ≠ j → s.Open j u → R (t.taken s.committed locks write next) u :=
      fun hij hu => M.take_pair hij ht hu hC (hs.each ht) (hs.each hu) (hs.pair hij ht hu).1 hp hc
    refine ⟨hs.store, fun hu => ?_, fun hjk hu hv => ?_⟩
    · rcases open_replace hu with ⟨-, rfl, -⟩ | ⟨-, hu⟩
      · exact M.take hs.store (hs.each ht) hp hc
      · exact hs.each hu
    · rcases open_replace hu with ⟨hj, hu1, -⟩ | ⟨hj, hu1⟩ <;>
        rcases open_replace hv with ⟨hk, hv1, -⟩ | ⟨hk, hv1⟩
      · exact absurd (hj.trans hk.symm) hjk
      · rw [hu1]
        exact ⟨hpair hk.symm hv1, hlocks hk.symm hv1⟩
      · rw [hv1]
        exact ⟨M.symm (hpair hj.symm hu1), fun l hl hl' => hlocks hj.symm hu1 l hl' hl⟩
      · exact hs.pair hjk hu1 hv1
  | @commit i t ht hp =>
    refine ⟨M.commit hs.store (hs.each ht) hp, fun hu => ?_, hs.close_pair⟩
    obtain ⟨hji, hu⟩ := open_close (s := s) hu
    obtain ⟨hR, hlocks⟩ := hs.pair hji.symm ht hu
    exact M.interfere hs.store (hs.each ht) (hs.each hu) hR hlocks hp

/-- **Run.** A split invariant holds at the end of every run whose steps meet `C`. -/
theorem run (M : Modular S C G P R) {s s' : Store W K D L E}
    {as : List (Action W E)} (hs : Split G P R s) (hC : S.machine.Along C s as)
    (h : S.machine.run s as = some s') : Split G P R s' :=
  Machine.run_invariant (fun _ _ _ hI hC h => M.step hI hC (S.move_of_step h)) hs hC h

end Modular

end ReadCommitted
