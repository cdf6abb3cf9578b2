import Omnicore.Write.Transactions

/-!
# Optimistic concurrency

An update, an archive or an unarchive carries the revision its row was loaded with, and the
`UPDATE` of the row matches that revision only.  Clients interleave their statements in every way;
hard deletes and writes of other rows go on beside them.

The revision of a row then counts the committed writes: each one was built on the revision the one
before it left.  A write built on any other revision writes nothing, and is told whether the row
moved or is gone, unless a check that comes before the `UPDATE` refuses it first.

## Main results

* `committed_writes_consecutive` : both facts, for every interleaving.
-/

namespace Omnicore.Write

open Omnicore.Core ReadCommitted List Database Option RowWrite

variable {α : Type}

/-! ### The writes of one row -/

namespace RowWrite

/-- The write carries a loaded revision; a hard delete does not. -/
def guarded (w : RowWrite α) : Bool :=
  match w.verb with
  | .delete _ => false
  | _ => true

/-- The write is a guarded one of the row. -/
def isOn (table id : String) (w : RowWrite α) : Bool :=
  w.guarded && decide (w.schema.table = table ∧ w.src.id = id)

/-- The row is at the revision the write was built on. -/
def current (w : RowWrite α) (db : Database) : Bool :=
  (db.root w.schema.table w.src.id).any (·.revision = w.src.revision)

/-- What a write built on another revision is told. -/
def staleAnswer (w : RowWrite α) (db : Database) : WriteError :=
  if (db.root w.schema.table w.src.id).isSome then
    .concurrentModification w.src.name idField
  else .notFound w.src.name idField w.src.id

/-- The checks of a verb that come before its `UPDATE`. -/
def precheck (env : Env) (w : RowWrite α) (db : Database) : Except WriteError Unit :=
  match w.verb with
  | .update => match w.schema.sharedBase with
    | none => .ok ()
    | some link => do
      requireNaturalKey link.base w.src
      guardNaturalKeyImmutable db w.schema link.base w.src.name w.src.id
        (env.baseIDOf link.base w.src)
  | .archive | .unarchive => match w.schema.archivedAt with
    | none => .error (.failed ("db: " ++ w.src.name ++ " did not declare ArchivedAt in its " ++
        "TableSchema — archive/unarchive is unavailable"))
    | some _ => bif w.verb = .archive then .ok ()
        else vetoUnarchiveWithActiveSibling env db w.schema w.src w.src.id
  | .delete _ => .ok ()

/-- The answer of a write that commits nothing because of its revision. -/
def Refused (env : Env) (w : RowWrite α) (db : Database) (e : WriteError) : Prop :=
  e = w.staleAnswer db ∨ w.precheck env db = .error e

end RowWrite

/-- The transactions of clients on their own, with no order between them. -/
def clientSystem [PersistentItem α] (env : Env) :
    System (RowWrite α) StatementKind Database RowKey WriteError where
  program := program env
  admits _ _ := true

/-- A store with the transactions on it. -/
abbrev WriteStore (α : Type) := Store (RowWrite α) StatementKind Database RowKey WriteError

/-- A write that starts carries the revision of a load, which is at least one. -/
def CarriesRevision : Action (RowWrite α) WriteError → Prop
  | .start w => w.guarded = true → 1 ≤ w.src.revision
  | _ => True

instance : DecidablePred (CarriesRevision (α := α)) := fun a => match a with
  | .start w => inferInstanceAs (Decidable (w.guarded = true → 1 ≤ w.src.revision))
  | .exec _ => .isTrue trivial
  | .abort _ _ => .isTrue trivial

/-- The revisions the committed writes of a row were built on, in the order of their commits. -/
def builtOn (table id : String) (history : List (RowWrite α)) : List ℕ :=
  (history.filter (·.isOn table id)).map (·.src.revision)

/-- The committed writes of a row are built on its first revision and on each next one in turn, and
the row, while it is there, has as many more revisions. -/
def Consecutive (db₀ : Database) (table id : String) (db : Database)
    (history : List (RowWrite α)) : Prop :=
  match db₀.root table id with
  | none => builtOn table id history = [] ∧ db.root table id = none
  | some r₀ =>
    builtOn table id history = range' r₀.revision (builtOn table id history).length ∧
      ∀ r ∈ db.root table id, r.revision = r₀.revision + (builtOn table id history).length

/-- A transaction built on another revision than the row's ends in a refusal, and a step of it
neither commits anything nor gives another answer. -/
def RefusesStale [PersistentItem α] (env : Env) (s : WriteStore α) :
    Action (RowWrite α) WriteError → Prop
  | .exec i => ∀ t, s.Open i t → t.work.guarded = true → t.work.current s.committed = false →
      (∃ e, t.finish s.committed = .error e ∧ t.work.Refused env s.committed e) ∧
      ∀ s', (clientSystem env).machine.step s (.exec i) = some s' →
        s'.committed = s.committed ∧ s'.history = s.history ∧
        ∀ t', s'.transactions[i]? = some t' → ∀ r, t'.outcome = some r →
          ∃ e, r = .error e ∧ t.work.Refused env s.committed e
  | _ => True

/-! ### What the statements of a write do to a row -/

variable {db db' : Database} {w : RowWrite α} {table : String}

theorem RowWrite.current_congr (w : RowWrite α) (h : db'.roots = db.roots) :
    w.current db' = w.current db := by
  simp [current, root, h]

theorem RowWrite.precheck_congr (env : Env) (w : RowWrite α) (h : db'.roots = db.roots) :
    w.precheck env db' = w.precheck env db := by
  have hguard : ∀ base baseID,
      guardNaturalKeyImmutable db' w.schema base w.src.name w.src.id baseID =
        guardNaturalKeyImmutable db w.schema base w.src.name w.src.id baseID := by
    simp [guardNaturalKeyImmutable, root, h]
  have hveto : vetoUnarchiveWithActiveSibling env db' w.schema w.src w.src.id =
      vetoUnarchiveWithActiveSibling env db w.schema w.src w.src.id := by
    simp [vetoUnarchiveWithActiveSibling, h]
  simp [precheck, hguard, hveto]

theorem RowWrite.refused_congr {env : Env} {e : WriteError} (h : db'.roots = db.roots) :
    w.Refused env db' e ↔ w.Refused env db e := by
  rw [Refused, Refused, w.precheck_congr env h, staleAnswer, staleAnswer, root, root, h]

/-- Before its `UPDATE` a write leaves the root rows alone and fails only with a refusal; the
`UPDATE` finds the row at the revision of the write, locks it and advances its revision, and no
later statement touches a root row. -/
def GuardedBy (env : Env) (w : RowWrite α) : TxProgram → Prop
  | .commit => False
  | .stmt _ locks check write next => ∀ v,
      (∀ e, check v = some e → w.current v = false → w.Refused env v e) ∧
      (check v = none →
        ((∀ d, (write v d).roots = d.roots) ∧ GuardedBy env w (next v)) ∨
        (w.current v = true ∧ w.key ∈ locks v ∧
          (∃ f, ∀ d, write v d = d.writeRoot w.schema.table w.src.id f) ∧
          (next v).Preserves roots))

/-- No statement changes the row, except that one that has it locked may remove it. -/
def Spares (table id : String) : TxProgram → Prop
  | .commit => True
  | .stmt _ locks _ write next => ∀ v,
      ((∀ d, (write v d).root table id = d.root table id) ∨
        (.root table id ∈ locks v ∧
          ∀ d, (write v d).root table id = d.root table id ∨ (write v d).root table id = none)) ∧
      Spares table id (next v)

section

variable {env : Env} {w : RowWrite α} {table id : String}

variable {test : Database → Except WriteError Unit} {f : Database → Database}

theorem guardedBy_read {kind : StatementKind} {next : Database → TxProgram}
    (htest : ∀ v e, test v = .error e → w.current v = false → w.Refused env v e)
    (hnext : ∀ v, test v = .ok () → GuardedBy env w (next v)) :
    GuardedBy env w (.read kind test next) := by
  intro v
  refine ⟨fun e he => ?_, fun hnone => .inl ⟨fun _ => rfl, hnext v ?_⟩⟩
  · cases ht : test v with
    | error e' =>
      simp only [ht, some.injEq] at he
      exact htest v e (ht.trans (he ▸ rfl))
    | ok _ => simp [ht] at he
  · cases ht : test v with
    | error e' => simp [ht] at hnone
    | ok _ => rfl

variable {next : TxProgram}

theorem guardedBy_demand {test : Except WriteError Unit}
    (htest : ∀ e, test = .error e → ∀ v, w.Refused env v e)
    (hnext : test = .ok () → GuardedBy env w next) : GuardedBy env w (demand test next) := by
  cases test with
  | ok _ => exact hnext rfl
  | error e => refine guardedBy_read (fun v e' he _ => htest e' he v) (fun _ h => nomatch h)

theorem guardedBy_plain (hf : ∀ d, (f d).roots = d.roots) (hnext : GuardedBy env w next) :
    GuardedBy env w (plain f next) :=
  fun _ => ⟨fun _ he => (nomatch he), fun _ => .inl ⟨hf, hnext⟩⟩

theorem guardedBy_execExpectingRow {f : RootRow → RootRow} (hrev : 1 ≤ w.src.revision)
    (hnext : next.Preserves roots) :
    GuardedBy env w (execExpectingRow w.schema.table w.src.name idField w.src.id
      w.src.revision f next) := by
  have hne : w.src.revision ≠ 0 := by omega
  have hmatch : ∀ v : Database, v.matchesRoot w.schema.table w.src.id w.src.revision =
      w.current v := by
    simp [matchesRoot, current, hne]
  intro v
  refine ⟨by rintro _ ⟨⟩, fun _ => ?_⟩
  cases hc : w.current v with
  | true =>
    refine .inr ⟨rfl, ?_, ⟨f, fun d => ?_⟩, ?_⟩
    · simp [hmatch, hc, key]
    · simp [hmatch, hc]
    · simpa [hmatch, hc] using hnext
  | false =>
    refine .inl ⟨fun d => ?_, ?_⟩
    · simp [hmatch, hc]
    · simp only [hmatch, hc, Bool.false_eq_true, if_false]
      -- the probe that tells a moved row from a vanished one
      refine guardedBy_read (fun v' e he _ => .inl ?_) (by rintro _ ⟨⟩)
      rw [staleAnswer]
      injection he with he
      rw [← he]
      simp [hne]

theorem guardedBy_program [PersistentItem α] (hguard : w.guarded = true)
    (hrev : 1 ≤ w.src.revision) : GuardedBy env w (w.program env) := by
  have harchive : ∀ archive : Bool, w.verb = (bif archive then .archive else .unarchive) →
      GuardedBy env w (archiveProgram env w.schema w.src archive w.now) := by
    intro archive hverb
    rw [archiveProgram]
    split
    · rename_i hcol
      refine guardedBy_read (fun v e he _ => .inr ?_) (by rintro _ ⟨⟩)
      cases archive <;> simp only [precheck, hverb, hcol, cond_true, cond_false] <;>
        exact he
    · rename_i hcol
      refine guardedBy_read (fun v e he _ => .inr ?_) fun v _ => ?_
      · cases archive with
        | true => cases he
        | false => simpa [precheck, hverb, hcol] using he
      · refine guardedBy_read (by rintro _ _ ⟨⟩) fun v _ => ?_
        exact guardedBy_plain (fun d => roots_of_spine (spine_cascadeChildren ..))
          (guardedBy_execExpectingRow hrev (every_archiveTail quiet_roots fun _ _ => rfl))
  rw [program]
  split
  · rename_i hverb
    split
    · exact guardedBy_execExpectingRow hrev (every_writeChildrenProgram quiet_roots fun _ =>
        every_outboxMetaProgram quiet_roots fun _ => every_writeOutboxProgram quiet_roots)
    · rename_i link hlink
      refine guardedBy_demand (fun e he v => .inr ?_) fun hnk => ?_
      · simp only [precheck, hverb, hlink, he]
        rfl
      · refine guardedBy_read (fun v e he _ => .inr ?_) fun _ _ => ?_
        · simp only [precheck, hverb, hlink, hnk]
          exact he
        · exact guardedBy_execExpectingRow hrev (every_updateTail quiet_roots fun _ _ => rfl)
  · rename_i hverb
    exact harchive true hverb
  · rename_i hverb
    exact harchive false hverb
  · rename_i hverb
    simp [guarded, hverb] at hguard

theorem spares_of_preserves {p : TxProgram} (h : p.Preserves roots) : Spares table id p := by
  induction p with
  | commit => trivial
  | stmt kind locks check write next ih =>
    intro v
    refine ⟨.inl fun d => ?_, ih v (h.2 v)⟩
    rw [root, h.1 v d, root]

theorem spares_read {kind : StatementKind} {next : Database → TxProgram}
    (h : ∀ v, Spares table id (next v)) : Spares table id (.read kind test next) :=
  fun v => ⟨.inl fun _ => rfl, h v⟩

theorem spares_demand {test : Except WriteError Unit} (h : Spares table id next) :
    Spares table id (demand test next) := by
  cases test with
  | error e => exact spares_of_preserves (every_failed quiet_roots e)
  | ok _ => exact h

theorem spares_plain (hf : ∀ d, (f d).roots = d.roots) (hnext : Spares table id next) :
    Spares table id (plain f next) :=
  fun _ => ⟨.inl fun d => by rw [root, hf, root], hnext⟩

theorem spares_execExpectingRow {t i context field : String} {rev : ℕ} {f : RootRow → RootRow}
    (hne : ¬(t = table ∧ i = id)) (hnext : next.Preserves roots) :
    Spares table id (execExpectingRow t context field i rev f next) := by
  refine fun v => ⟨.inl fun d => ?_, ?_⟩
  · dsimp only
    split_ifs
    · exact root_writeRoot_of_ne hne
    · rfl
  · dsimp only
    split_ifs
    · exact spares_of_preserves hnext
    · exact spares_read fun _ => trivial

theorem spares_execDeleteRoot {t i : String} (hnext : Spares table id next) :
    Spares table id (execDeleteRoot t i next) := by
  refine fun v => ⟨?_, hnext⟩
  by_cases hv : (v.root t i).isSome = true
  · simp only [hv, if_true, root_deleteRoot]
    by_cases hrow : t = table ∧ i = id
    · exact .inr ⟨by simp [hrow], fun d => .inr (if_pos hrow)⟩
    · exact .inl fun d => if_neg hrow
  · simp only [hv, Bool.false_eq_true, if_false]
    exact .inl fun d => trivial

theorem spares_program [PersistentItem α] (hoff : w.isOn table id = false) :
    Spares table id (w.program env) := by
  have hne : w.guarded = true → ¬(w.schema.table = table ∧ w.src.id = id) := by
    intro hg hrow
    simp [isOn, hg, hrow] at hoff
  have harchive : ∀ archive, w.guarded = true →
      Spares table id (archiveProgram env w.schema w.src archive w.now) := by
    intro archive hg
    rw [archiveProgram]
    split
    · exact spares_of_preserves (every_failed quiet_roots _)
    · refine spares_read fun _ => spares_read fun v => spares_plain (fun d => ?_)
        (spares_execExpectingRow (hne hg) (every_archiveTail quiet_roots fun _ _ => rfl))
      exact roots_of_spine (spine_cascadeChildren ..)
  rw [program]
  split
  · rename_i hverb
    have hg : w.guarded = true := by simp [guarded, hverb]
    split
    · exact spares_execExpectingRow (hne hg) (every_writeChildrenProgram quiet_roots fun _ =>
        every_outboxMetaProgram quiet_roots fun _ => every_writeOutboxProgram quiet_roots)
    · exact spares_demand <| spares_read fun _ => spares_execExpectingRow (hne hg)
        (every_updateTail quiet_roots fun _ _ => rfl)
  · rename_i hverb
    exact harchive true (by simp [guarded, hverb])
  · rename_i hverb
    exact harchive false (by simp [guarded, hverb])
  · refine spares_plain (fun d => ?_) (spares_read fun v => spares_execDeleteRoot
      (spares_of_preserves (every_deleteTail quiet_roots fun _ _ => rfl)))
    exact foldl_frame roots (fun _ _ => roots_of_spine (spine_deleteChildRows ..)) _ _

theorem GuardedBy.run_error {p : TxProgram} {db : Database} (h : GuardedBy env w p)
    (hstale : w.current db = false) : ∃ e, p.run db = .error e ∧ w.Refused env db e := by
  induction p generalizing db with
  | commit => exact h.elim
  | stmt kind locks check write next ih =>
    obtain ⟨herr, hok⟩ := h db
    rw [Program.run]
    cases hc : check db with
    | some e => exact ⟨e, rfl, herr e hc hstale⟩
    | none =>
      rcases hok hc with ⟨hroots, hnext⟩ | ⟨hcur, -⟩
      · obtain ⟨e, he, hr⟩ := ih db hnext ((w.current_congr (hroots db)).trans hstale)
        exact ⟨e, he, (refused_congr (hroots db)).1 hr⟩
      · rw [hcur] at hstale
        cases hstale

end

/-! ### Runs -/

/-- How far a transaction is with a row: a guarded write of the row before its `UPDATE`, one that
has advanced it and holds its lock, or a transaction that changes the row in no other way than by
removing it under its lock. -/
inductive RowPhase (env : Env) (table id : String) (c : Database)
    (t : Transaction (RowWrite α) StatementKind Database RowKey WriteError) : Prop
  | before (hon : t.work.isOn table id = true) (hwrites : ∀ d, (t.writes d).roots = d.roots)
      (hprogram : GuardedBy env t.work t.program)
  | written (hon : t.work.isOn table id = true) (hcurrent : t.work.current c = true)
      (hheld : .root table id ∈ t.held)
      (hwrites : ∃ f, ∀ d, (t.writes d).roots = (d.writeRoot table id f).roots)
      (hprogram : t.program.Preserves roots)
  | other (hoff : t.work.isOn table id = false)
      (hwrites : (∀ d, (t.writes d).root table id = d.root table id) ∨
        (.root table id ∈ t.held ∧
          ∀ d, (t.writes d).root table id = d.root table id ∨ (t.writes d).root table id = none))
      (hprogram : Spares table id t.program)

variable {id : String} {history : List (RowWrite α)}

theorem RowWrite.isOn_iff : w.isOn table id = true ↔
    w.guarded = true ∧ w.schema.table = table ∧ w.src.id = id := by
  simp [isOn]

theorem builtOn_append (history : List (RowWrite α)) :
    builtOn table id (history ++ [w]) = builtOn table id history ++
      if w.isOn table id then [w.src.revision] else [] := by
  rw [builtOn, filter_append, map_append, builtOn]
  cases h : w.isOn table id <;> simp [h]

theorem Consecutive.of_other {db0 : Database} (h : Consecutive db0 table id db history)
    (hoff : w.isOn table id = false)
    (hrow : db'.root table id = db.root table id ∨ db'.root table id = none) :
    Consecutive db0 table id db' (history ++ [w]) := by
  have hbuilt : builtOn table id (history ++ [w]) = builtOn table id history := by
    rw [builtOn_append, hoff]
    simp
  rw [Consecutive] at h ⊢
  rw [hbuilt]
  cases hr0 : db0.root table id with
  | none =>
    rw [hr0] at h
    exact ⟨h.1, hrow.elim (fun he => he.trans h.2) fun he => he⟩
  | some r0 =>
    rw [hr0] at h
    refine ⟨h.1, fun r hr => ?_⟩
    rcases hrow with he | he
    · exact h.2 r (he ▸ hr)
    · rw [he] at hr
      cases hr

theorem Consecutive.of_written {db0 : Database} (h : Consecutive db0 table id db history)
    (hon : w.isOn table id = true) (hcurrent : w.current db = true) {f : RootRow → RootRow}
    (hrow : db'.roots = (db.writeRoot table id f).roots) :
    Consecutive db0 table id db' (history ++ [w]) := by
  obtain ⟨-, rfl, rfl⟩ := isOn_iff.1 hon
  have hroot : db'.root w.schema.table w.src.id =
      (db.root w.schema.table w.src.id).map (RootRow.written f) := by
    rw [root, hrow]
    exact root_writeRoot ..
  have hbuilt : builtOn w.schema.table w.src.id (history ++ [w]) =
      builtOn w.schema.table w.src.id history ++ [w.src.revision] := by
    rw [builtOn_append, hon]
    rfl
  rw [current, Option.any_eq_true] at hcurrent
  obtain ⟨r, hr, hrev⟩ := hcurrent
  rw [Consecutive] at h ⊢
  rw [hbuilt]
  cases hr0 : db0.root w.schema.table w.src.id with
  | none =>
    rw [hr0] at h
    exact absurd (hr.symm.trans h.2) (by simp)
  | some r0 =>
    rw [hr0] at h
    obtain ⟨hrange, hlast⟩ := h
    have hnext : w.src.revision =
        r0.revision + (builtOn w.schema.table w.src.id history).length := by
      rw [← hlast r hr]
      exact (of_decide_eq_true hrev).symm
    refine ⟨?_, fun r' hr' => ?_⟩
    · rw [length_append, length_singleton, range'_concat, Nat.one_mul, ← hrange, hnext]
    · rw [hroot, hr] at hr'
      obtain rfl := some.inj hr'
      rw [length_append, length_singleton, ← Nat.add_assoc, ← hlast r hr]
      rfl

/-- **Step.** What each step of an interleaving owes to one row. -/
theorem rowModular [PersistentItem α] (env : Env) (db0 : Database) :
    Modular (clientSystem (α := α) env) (fun _ a => CarriesRevision a)
      (Consecutive db0 table id) (RowPhase env table id) (fun _ _ => True) where
  symm := fun h => h
  start {s w} _ hC _ := by
    cases hon : w.isOn table id with
    | true =>
      have hg := (isOn_iff.1 hon).1
      exact .before hon (fun _ => rfl) (guardedBy_program hg (hC hg))
    | false => exact .other hon (.inl fun _ => rfl) (spares_program hon)
  start_pair _ _ := trivial
  take {c h t kind locks check write next} _ ht hp hc := by
    cases ht with
    | before hon hwrites hprogram =>
      rw [hp] at hprogram
      rcases (hprogram (t.writes c)).2 hc with ⟨hroots, hnext⟩ | ⟨hcur, hkey, ⟨f, hf⟩, hnext⟩
      · exact .before hon (fun d => (hroots _).trans (hwrites d)) hnext
      · obtain ⟨-, rfl, rfl⟩ := isOn_iff.1 hon
        refine .written hon ((t.work.current_congr (hwrites c)).symm.trans hcur)
          (mem_append_right _ hkey) ⟨f, fun d => ?_⟩ hnext
        show (write (t.writes c) (t.writes d)).roots = _
        simp [hf, writeRoot, setRoots, hwrites d]
    | written hon hcurrent hheld hwrites hprogram =>
      obtain ⟨hnext, hsame⟩ := Transaction.preserves_taken hp hprogram c
      obtain ⟨f, hf⟩ := hwrites
      exact .written hon hcurrent (mem_append_left _ hheld)
        ⟨f, fun d => (hsame d).trans (hf d)⟩ hnext
    | other hoff hwrites hprogram =>
      rw [hp] at hprogram
      obtain ⟨hstep, hnext⟩ := hprogram (t.writes c)
      refine .other hoff ?_ hnext
      rcases hwrites with hwrites | ⟨hheld, hwrites⟩ <;> rcases hstep with hstep | ⟨hlock, hstep⟩
      · exact .inl fun d => (hstep _).trans (hwrites d)
      · exact .inr ⟨mem_append_right _ hlock, fun d => (hstep (t.writes d)).imp_left
          (·.trans (hwrites d))⟩
      · exact .inr ⟨mem_append_left _ hheld, fun d => (hwrites d).imp
          (hstep _).trans (hstep _).trans⟩
      · refine .inr ⟨mem_append_left _ hheld, fun d => ?_⟩
        rcases hstep (t.writes d) with he | he
        · exact (hwrites d).imp he.trans he.trans
        · exact .inr he
  take_pair := fun _ _ _ _ _ _ _ _ _ => trivial
  commit {c h t} hG ht hp := by
    cases ht with
    | before _ _ hprogram =>
      rw [hp] at hprogram
      exact hprogram.elim
    | written hon hcurrent _ hwrites _ =>
      obtain ⟨f, hf⟩ := hwrites
      exact hG.of_written hon hcurrent (hf c)
    | other hoff hwrites _ =>
      exact hG.of_other hoff (hwrites.elim (fun h => .inl (h c)) fun h => h.2 c)
  interfere {c h t u} _ ht hu _ hlocks hp := by
    cases hu with
    | before hon hwrites hprogram => exact .before hon hwrites hprogram
    | other hoff hwrites hprogram => exact .other hoff hwrites hprogram
    | written hon hcurrent hheld hwrites hprogram =>
      refine .written hon ?_ hheld hwrites hprogram
      -- the other transaction does not hold the lock, so it has left the row alone
      have hsame : (t.writes c).root table id = c.root table id := by
        cases ht with
        | before _ _ hprogram =>
          rw [hp] at hprogram
          exact hprogram.elim
        | written _ _ hheld' => exact absurd hheld (hlocks _ hheld')
        | other _ hwrites' _ =>
          rcases hwrites' with hsame | ⟨hheld', -⟩
          · exact hsame c
          · exact absurd hheld (hlocks _ hheld')
      obtain ⟨-, rfl, rfl⟩ := isOn_iff.1 hon
      rw [current, hsame]
      exact hcurrent

theorem refusesStale_of_phase [PersistentItem α] {env : Env} {s : WriteStore α}
    (hs : ∀ table id {i t}, s.Open i t → RowPhase env table id s.committed t)
    (a : Action (RowWrite α) WriteError) : RefusesStale env s a := by
  cases a with
  | start | abort => trivial
  | exec i =>
    intro t ht hg hstale
    have hon : t.work.isOn t.work.schema.table t.work.src.id = true := isOn_iff.2 ⟨hg, rfl, rfl⟩
    -- a write that has advanced its row still sees it at the revision it was built on
    obtain ⟨hwrites, hprogram⟩ : (∀ d, (t.writes d).roots = d.roots) ∧
        GuardedBy env t.work t.program := by
      cases hs t.work.schema.table t.work.src.id ht with
      | before _ hwrites hprogram => exact ⟨hwrites, hprogram⟩
      | written _ hcurrent => rw [hcurrent] at hstale; cases hstale
      | other hoff => rw [hon] at hoff; cases hoff
    have hview : t.work.current (t.writes s.committed) = false :=
      (t.work.current_congr (hwrites _)).trans hstale
    refine ⟨?_, fun s' hstep => ?_⟩
    · obtain ⟨e, he, hr⟩ := hprogram.run_error hview
      exact ⟨e, he, (refused_congr (hwrites _)).1 hr⟩
    · have hmove := (clientSystem env).move_of_step hstep
      generalize haction : Action.exec i = a at hmove
      cases hmove with
      | start | abort => cases haction
      | @commit j u hu hp =>
        cases haction
        obtain rfl := some.inj (ht.1.symm.trans hu.1)
        rw [hp] at hprogram
        exact hprogram.elim
      | @fail j u e kind locks check write next hu hp hc =>
        cases haction
        obtain rfl := some.inj (ht.1.symm.trans hu.1)
        refine ⟨rfl, rfl, fun t' ht' r hr => ?_⟩
        rw [Store.close, Store.replace, getElem?_set_self hu.lt] at ht'
        obtain rfl := some.inj ht'
        obtain rfl := some.inj hr
        rw [hp] at hprogram
        exact ⟨e, rfl, (refused_congr (hwrites _)).1 ((hprogram _).1 e hc hview)⟩
      | @take j u kind locks check write next hu hp hc hfree =>
        cases haction
        refine ⟨rfl, rfl, fun t' ht' r hr => ?_⟩
        rw [Store.replace, getElem?_set_self hu.lt] at ht'
        obtain rfl := some.inj ht'
        exact absurd (hu.2.symm.trans hr) (by simp)

/-- **No lost update.** In every interleaving of updates, archives and unarchives that carry a
loaded revision, with hard deletes beside them, the committed writes of each row are built on
consecutive revisions, and a write built on another revision than the row's commits nothing: it is
told that the row moved or is gone, or what an earlier check of its verb refuses. -/
theorem committed_writes_consecutive [PersistentItem α] (env : Env) (db₀ : Database)
    (as : List (Action (RowWrite α) WriteError)) (s : WriteStore α)
    (hrev : ∀ a ∈ as, CarriesRevision a)
    (hrun : (clientSystem env).machine.run { committed := db₀ } as = some s) :
    (∀ table id, Consecutive db₀ table id s.committed s.history) ∧
    (clientSystem env).machine.Along (RefusesStale env) { committed := db₀ } as := by
  have hC := Machine.along_of_forall (M := (clientSystem env).machine) hrev { committed := db₀ }
  have hinit : ∀ table id, Split (Consecutive db₀ table id) (RowPhase env table id)
      (fun _ _ => True) ({ committed := db₀ } : WriteStore α) := by
    refine fun table id => Split.init ?_
    rw [Consecutive]
    split
    · rename_i h
      exact ⟨rfl, h⟩
    · rename_i h
      exact ⟨rfl, fun r hr => (some.inj (h.symm.trans hr)) ▸ rfl⟩
  refine ⟨fun table id => ((rowModular env db₀).run (hinit table id) hC hrun).store, ?_⟩
  refine Machine.along_of_invariant
    (I := fun s => ∀ table id, Split (Consecutive db₀ table id) (RowPhase env table id)
      (fun _ _ => True) s)
    (fun s a s' hI hC h table id => (rowModular env db₀).step (hI table id) hC
      ((clientSystem env).move_of_step h))
    (fun s a hI _ => refusesStale_of_phase (fun table id _ _ ht => (hI table id).each ht) a)
    hinit hC

/-- Two archived student rows of one person. -/
def twoStudents : Database where
  roots t := if t = "student" then
      ⟨[{ id := "s0", parentID := "person-7", fields := [], archivedAt := some (.ms 1)
          revision := 2 },
        { id := "s1", parentID := "person-7", fields := [], archivedAt := some (.ms 1) }],
        by decide⟩
    else .empty
  bases := ⟨[{ id := "person-7", fields := [], archivedAt := some (.ms 1) }], by decide⟩

/-- Start a write as the `i`th transaction and take its first `n` statements. -/
def startAndTake (w : RowWrite Address) (i n : ℕ) : List (Action (RowWrite Address) WriteError) :=
  .start w :: replicate n (.exec i)

/-- Two clients unarchive the row they both loaded at revision two; the second one reaches its
`UPDATE` after the first one has committed. -/
def racedUnarchives : List (Action (RowWrite Address) WriteError) :=
  startAndTake ⟨student, .unarchive, roleOf7 "s0" 2 "Ann", .ms 2⟩ 0 3 ++
    startAndTake ⟨student, .unarchive, roleOf7 "s0" 2 "Ann", .ms 3⟩ 1 12 ++
    replicate 2 (.exec 0)

theorem racedUnarchives_consecutive :
    ∃ s, (clientSystem personEnv).machine.run { committed := twoStudents } racedUnarchives =
        some s ∧
      Consecutive twoStudents "student" "s0" s.committed s.history ∧
      (s.transactions[0]?.bind (·.outcome)) = some (.error (.concurrentModification "" "id")) := by
  exact Machine.exists_run (fun s => (s.transactions[0]?.bind (·.outcome)) =
      some (.error (.concurrentModification "" "id"))) (by decide +kernel) fun s hs hanswer =>
    ⟨(committed_writes_consecutive personEnv twoStudents racedUnarchives s (by decide) hs).1
      "student" "s0", hanswer⟩

/-- A row is loaded at revision two, restored and archived again, and another row of the same role
is restored. -/
def restoredBeside : List (Action (RowWrite Address) WriteError) :=
  startAndTake ⟨student, .unarchive, roleOf7 "s0" 2 "Ann", .ms 2⟩ 0 12 ++
    startAndTake ⟨student, .archive, roleOf7 "s0" 3 "Ann", .ms 3⟩ 1 13 ++
    startAndTake ⟨student, .unarchive, roleOf7 "s1" 1 "Ann", .ms 4⟩ 2 12

/-- The unarchive built on revision two then finds the row at revision four, and is told of the
other row: the sibling is probed before the `UPDATE`. -/
theorem stale_unarchive_told_of_sibling :
    ∃ s ∈ (clientSystem personEnv).machine.run { committed := twoStudents } (restoredBeside ++
        startAndTake ⟨student, .unarchive, roleOf7 "s0" 2 "Ann", 5⟩ 3 1),
      (s.committed.root "student" "s0").map (·.revision) = some 4 ∧
      (s.transactions[3]?.bind (·.outcome)) = some (.error (.entityAlreadyAdded "" "id")) := by
  decide +kernel

end Omnicore.Write
