import Omnicore.Write.OptimisticLock

/-!
# Concurrent lifecycle of a shared base

Archive, unarchive and hard delete of different role rows of one identity, interleaved statement by
statement.  Each verb writes its role row, probes the other rows or the base, and then moves the
base.  The probe reads what is committed, and it comes before the verb takes the lock of the base
row: two verbs that probe while neither has committed each see the state before the other.

A run in which no verb probes while another one has an uncommitted write of its role row keeps the
base in step with its roles.

## Main results

* `base_follows_interleaved` : such a run, in every state it reaches.
* `deletes_leave_base` : two hard deletes that probe too early.
-/

namespace Omnicore.Write

open Omnicore.Core ReadCommitted List Database RowWrite Except

variable {α : Type}

namespace RowWrite

/-- What the write does to its role row. -/
def moved (w : RowWrite α) (db : Database) : Database :=
  match w.verb with
  | .update => db
  | .archive => db.writeRoot w.schema.table w.src.id (archivedRootRow w.schema w.src true w.now)
  | .unarchive => db.writeRoot w.schema.table w.src.id (archivedRootRow w.schema w.src false w.now)
  | .delete _ => db.deleteRoot w.schema.table w.src.id

/-- The row of the write is there and references the base. -/
def Linked (baseID : String) (w : RowWrite α) (db : Database) : Prop :=
  ∃ r, db.root w.schema.table w.src.id = some r ∧ r.link w.schema = baseID

end RowWrite

/-- The row a load-first verb starts from: active for an update or an archive, archived for an
unarchive, of either state for a delete, and referencing the identity whose natural key the entity
carries. -/
def RoleWrite.loads (env : Env) (db : Database) (w : RoleWrite α) : Bool :=
  let scope (p : RootRow → Bool) : Bool := (db.root w.schema.table w.src.id).any fun r =>
    p r && w.schema.sharedBase.all fun link =>
      r.link w.schema = env.baseIDOf link.base w.src
  match w.verb with
  | .insert => true
  | .update | .archive => scope (·.isActive w.schema)
  | .unarchive => scope (·.archivedAt.isSome)
  | .delete _ => scope fun _ => true

/-- A lock on a root row. -/
def RowKey.isRoot : RowKey → Bool
  | .root _ _ => true
  | .base _ => false

/-- The transaction has written its role row. -/
def holdsRoleRow (t : Transaction (RowWrite α) StatementKind Database RowKey WriteError) : Bool :=
  t.held.any RowKey.isRoot

/-- Archive, unarchive and hard delete of loaded rows, each row in one transaction only. -/
def lifecycleSystem [PersistentItem α] (env : Env) :
    System (RowWrite α) StatementKind Database RowKey WriteError where
  program := program env
  admits s w := w.verb ≠ .update && w.roleWrite.loads env s.committed &&
    s.transactions.all fun t => t.work.key ≠ w.key

/-- No transaction takes the probe of its lifecycle step while another one has an uncommitted write
of its role row. -/
def ProbesAlone (s : WriteStore α) : Action (RowWrite α) WriteError → Prop
  | .exec i => ∀ t ∈ s.transactions[i]?, t.program.kind = some .probe →
      ∀ p ∈ s.transactions.zipIdx, p.2 ≠ i → p.1.outcome = none → holdsRoleRow p.1 = false
  | _ => True

instance (s : WriteStore α) : DecidablePred (ProbesAlone s) := fun a => match a with
  | .start _ => .isTrue trivial
  | .abort _ _ => .isTrue trivial
  | .exec i => by unfold ProbesAlone; infer_instance

/-- The base is in step with its roles; its presence counts only where it is purged with its last
role. -/
def Follows (env : Env) (baseID : String) (purges : Prop) (db : Database) : Prop :=
  ActiveWithRoles env baseID db ∧ (purges → PresentWithRoles env baseID db)

/-- A write that starts is on the identity. -/
def StartsOn (env : Env) (base : BaseSchema) (baseID : String) :
    Action (RowWrite α) WriteError → Prop
  | .start w => w.roleWrite.OnIdentity env base baseID
  | _ => True

/-- The purge of a write that starts is not vetoed by a foreign key outside the registry. -/
def Unvetoed : Action (RowWrite α) WriteError → Prop
  | .start w => w.verb.roleVerb.vetoed = false
  | _ => True

instance : DecidablePred (Unvetoed (α := α)) := fun a => match a with
  | .start w => inferInstanceAs (Decidable (w.verb.roleVerb.vetoed = false))
  | .exec _ => .isTrue trivial
  | .abort _ _ => .isTrue trivial

/-! ### The statements around the probe -/

/-- No way through the program commits. -/
def Doomed : TxProgram → Prop
  | .commit => False
  | .stmt _ _ check _ next => ∀ v, check v = none → Doomed (next v)

/-- A statement after the probe. -/
def Settled (kind : StatementKind) (write : Database → Database → Database) : Prop :=
  kind ≠ .probe ∧ ∀ v d, (write v d).roots = d.roots

theorem quiet_settled : Quiet Settled := ⟨fun hkind hroots => ⟨hkind, hroots⟩⟩

/-- The statements after the first one are settled. -/
def SettledAfter : TxProgram → Prop
  | .commit => True
  | .stmt _ _ _ _ next => ∀ v, (next v).Every Settled

/-- The rest of a verb from its probe on: whatever follows the role row's write, alone it leaves the
base in step. -/
structure ProbeTail (env : Env) (baseID : String) (purges : Prop) (w : RowWrite α)
    (p : TxProgram) : Prop where
  kind : p.kind = some .probe
  settled : SettledAfter p
  preserves : p.Preserves roots
  ends : ∀ {c db db' : Database}, Follows env baseID purges c → w.Linked baseID c →
    db.roots = (w.moved c).roots → db.bases = c.bases → p.run db = .ok db' →
    Follows env baseID purges db'

/-- Before the write of the role row only child rows are written; the write of the row locks it, and
`T` holds of the rest. -/
def BeforeRow (w : RowWrite α) (T : TxProgram → Prop) : TxProgram → Prop
  | .commit => False
  | .stmt _ locks check write next => ∀ v, (v.root w.schema.table w.src.id).isSome = true →
      check v = none →
      ((locks v).any RowKey.isRoot = false ∧
        (∀ d, (write v d).roots = d.roots ∧ (write v d).bases = d.bases) ∧
        BeforeRow w T (next v)) ∨
      (w.key ∈ locks v ∧ (∀ d, (write v d).roots = (w.moved d).roots ∧
        (write v d).bases = d.bases) ∧ T (next v))

section

variable {env : Env} {schema : SchemaDecl} {base : BaseSchema} {col baseID : String}
  {src : Entity α} {now : Instant} {purges : Prop} {w : RowWrite α} {T : TxProgram → Prop}

theorem baseLifecycleTarget_eq (hs : schema.sharedBase = some ⟨base, col⟩)
    (hb : base.archivedAt.isSome = true) : baseLifecycleTarget env schema src =
      requireNaturalKey base src >>= fun _ => .ok (some (base, env.baseIDOf base src)) := by
  have hb' : base.archivedAt.isNone = false := by simpa using hb
  simp only [baseLifecycleTarget, hs, hb', Bool.false_eq_true, if_false]
  rfl

theorem RowWrite.onIdentity_cases (hw : w.roleWrite.OnIdentity env base baseID) :
    w.schema ∈ env.referencingRoles ∧ (∃ col, w.schema.sharedBase = some ⟨base, col⟩) ∧
      env.baseIDOf base w.src = baseID :=
  ⟨hw.registered, hw.base_eq, hw.identity⟩

theorem requireNaturalKey_error (hnk : (sharedBaseValues base src).2 = "") :
    ∃ e, requireNaturalKey base src = .error e := by
  simp [requireNaturalKey, refuse, hnk]

theorem requireNaturalKey_ok (hnk : (sharedBaseValues base src).2 ≠ "") :
    requireNaturalKey base src = .ok () := by
  simp [requireNaturalKey, refuse, hnk]

theorem baseLifecycleTarget_ok (env : Env) (hs : schema.sharedBase = some ⟨base, col⟩)
    (hb : base.archivedAt.isSome = true) (hnk : (sharedBaseValues base src).2 ≠ "") :
    baseLifecycleTarget env schema src = .ok (some (base, env.baseIDOf base src)) := by
  rw [baseLifecycleTarget_eq hs hb, requireNaturalKey_ok hnk]
  rfl

/-! ### An empty natural key -/

theorem doomed_failed (e : WriteError) : Doomed (failed e) := fun _ h => nomatch h

variable {cascade : Option Instant} {kind : StatementKind} {archivedCol : String} {next : TxProgram}

variable {test : Database → Except WriteError Unit} {f : RootRow → RootRow}
  {roles : List SchemaDecl} {read : ℕ × Option Instant}

theorem doomed_read {next : Database → TxProgram} (h : ∀ v, Doomed (next v)) :
    Doomed (.read kind test next) :=
  fun v _ => h v

theorem doomed_write {locks : Database → List RowKey} {write : Database → Database → Database}
    (h : Doomed next) : Doomed (.write kind locks write next) :=
  fun _ _ => h

theorem doomed_execExpectingRow {table context field id : String} {rev : ℕ} (h : Doomed next) :
    Doomed (execExpectingRow table context field id rev f next) := by
  intro v _
  dsimp only
  split_ifs
  · exact h
  · exact fun _ h => nomatch h

theorem doomed_program [PersistentItem α] {w : RowWrite α}
    (hs : w.schema.sharedBase = some ⟨base, col⟩) (hb : base.archivedAt.isSome = true)
    (hverb : w.verb ≠ .update) (hnk : (sharedBaseValues base w.src).2 = "") :
    Doomed (w.program env) := by
  obtain ⟨e, he⟩ := requireNaturalKey_error hnk
  have htarget : baseLifecycleTarget env w.schema w.src = .error e := by
    rw [baseLifecycleTarget_eq hs hb, he]
    rfl
  have harchive : ∀ archive, Doomed (archiveProgram env w.schema w.src archive w.now) := by
    intro archive
    rw [archiveProgram]
    split
    · exact doomed_failed _
    · refine doomed_read fun _ => doomed_read fun _ => doomed_write <| doomed_execExpectingRow ?_
      rw [archiveTail, convergeBaseProgram, archiveBaseProgram, reactivateBaseProgram, htarget]
      split_ifs <;> exact doomed_failed e
  rw [program]
  split
  · rename_i hupdate
    exact absurd hupdate hverb
  · exact harchive true
  · exact harchive false
  · refine doomed_write <| doomed_read fun _ => doomed_write ?_
    have hb' : base.archivedAt.isNone = false := by simpa using hb
    rw [deleteTail, convergeAfterDeleteProgram, hs]
    simp only [he, demand, hb', Bool.false_eq_true, if_false]
    split_ifs <;> exact doomed_failed e

/-! ### Up to the role row -/

theorem beforeRow_failed (e : WriteError) : BeforeRow w T (failed e) := fun _ _ h => nomatch h

theorem beforeRow_read {next : Database → TxProgram} (h : ∀ v, BeforeRow w T (next v)) :
    BeforeRow w T (.read kind test next) :=
  fun v _ _ => .inl ⟨rfl, fun _ => ⟨rfl, rfl⟩, h v⟩

theorem beforeRow_plain {f : Database → Database} (hf : ∀ d, (f d).spine = d.spine)
    (hnext : BeforeRow w T next) : BeforeRow w T (plain f next) :=
  fun _ _ _ => .inl ⟨rfl, fun d => ⟨roots_of_spine (hf d), bases_of_spine (hf d)⟩, hnext⟩

theorem beforeRow_execExpectingRow {context field : String} {rev : ℕ}
    (hf : ∀ d, d.writeRoot w.schema.table w.src.id f = w.moved d) (hnext : T next) :
    BeforeRow w T (execExpectingRow w.schema.table context field w.src.id rev f next) := by
  intro v _ _
  cases hm : v.matchesRoot w.schema.table w.src.id rev with
  | true =>
    refine .inr ⟨by simp [hm, key], fun d => ?_, by simpa [hm] using hnext⟩
    simp only [hm, if_true, ← hf]
    exact ⟨trivial, rfl⟩
  | false =>
    refine .inl ⟨by simp [hm], fun d => by simp [hm], ?_⟩
    simp only [hm, Bool.false_eq_true, if_false]
    rintro _ _ ⟨⟩

theorem beforeRow_execDeleteRoot (hdelete : ∀ d, d.deleteRoot w.schema.table w.src.id = w.moved d)
    (hnext : T next) : BeforeRow w T (execDeleteRoot w.schema.table w.src.id next) := by
  intro v hv _
  refine .inr ⟨by simp [hv, key], fun d => ?_, hnext⟩
  simp only [hv, if_true, ← hdelete]
  exact ⟨trivial, rfl⟩

/-! ### From the probe on -/

variable {test : Database → SchemaDecl → Bool} {next : Bool → TxProgram}

theorem kind_selectRoles
    (hroles : roles ≠ []) : (selectRoles kind test next roles).kind = some kind := by
  cases roles with
  | nil => exact absurd rfl hroles
  | cons rr roles => rfl

theorem settledAfter_selectRoles
    (hnext : ∀ b, (next b).Every Settled) (hroles : roles ≠ []) :
    SettledAfter (selectRoles kind test next roles) := by
  cases roles with
  | nil => exact absurd rfl hroles
  | cons rr roles =>
    intro v
    dsimp only
    split_ifs
    · exact hnext true
    · exact every_selectRoles quiet_settled ⟨by decide, fun _ _ => rfl⟩ hnext roles

theorem archiveTail_ok [PersistentItem α] {archive : Bool} {db db' : Database}
    (h : (archiveTail env schema src archive now archivedCol cascade).run db = .ok db') :
    ∃ st db2, convergeBaseAfterArchiveWrite env db schema src archive now = .ok (st, db2) ∧
      db'.roots = db2.roots ∧ ∀ id, db'.baseArchivedAt id = db2.baseArchivedAt id := by
  rw [run_archiveTail, bind_ok] at h
  obtain ⟨⟨st, db2⟩, hconv, h⟩ := h
  obtain rfl := ok.inj h
  obtain ⟨hf1, -, -, hf2⟩ := (fillBaseMeta_advances _).frame
  exact ⟨st, db2, hconv, hf1, hf2⟩

theorem deleteTail_ok {vetoed : Bool} {db db' : Database}
    (h : (deleteTail env schema src now vetoed read).run db = .ok db') :
    ∃ purged db2, convergeBaseAfterHardDelete env db schema src now vetoed = .ok (purged, db2) ∧
      db'.roots = db2.roots ∧ ∀ id, db'.baseArchivedAt id = db2.baseArchivedAt id := by
  rw [run_deleteTail, bind_ok] at h
  obtain ⟨⟨purged, db2⟩, hconv, h⟩ := h
  obtain rfl := ok.inj h
  obtain ⟨hf1, -, -, hf2⟩ := (deleteMeta_advances rfl).frame
  exact ⟨purged, db2, hconv, hf1, hf2⟩

variable (hw : w.roleWrite.OnIdentity env base baseID) (hb : base.archivedAt.isSome = true)
  (hnk : (sharedBaseValues base w.src).2 ≠ "")
include hw hb hnk

theorem probeTail_delete {vetoed : Bool} (hverb : w.verb = .delete vetoed)
    (hpurges : purges → base.orphanPolicy = .deleteWhenUnreferenced ∧ vetoed = false) :
    ProbeTail env baseID purges w (deleteTail env w.schema w.src w.now vetoed read) := by
  obtain ⟨hreg, ⟨col, hs⟩, rfl⟩ := onIdentity_cases hw
  have hroles : env.referencingRoles ≠ [] := ne_nil_of_mem hreg
  have hb' : base.archivedAt.isNone = false := by simpa using hb
  have htarget := baseLifecycleTarget_ok env hs hb hnk
  refine ⟨?_, ?_, every_deleteTail quiet_roots fun _ _ => rfl, ?_⟩
  · rw [deleteTail, convergeAfterDeleteProgram, hs]
    simp only [requireNaturalKey_ok hnk, demand, hb', Bool.false_eq_true, if_false,
      archiveBaseProgram, htarget]
    split_ifs <;> exact kind_selectRoles hroles
  · rw [deleteTail, convergeAfterDeleteProgram, hs]
    simp only [requireNaturalKey_ok hnk, demand, hb', Bool.false_eq_true, if_false]
    split_ifs
    · exact settledAfter_selectRoles
        (every_purge quiet_settled (every_deleteEnd quiet_settled)) hroles
    · rw [archiveBaseProgram, htarget]
      exact settledAfter_selectRoles
        (every_archiveBase quiet_settled fun _ => every_deleteEnd quiet_settled false) hroles
  · intro c db db' hfollows hlink hroots hbases hrun
    obtain ⟨purged, db2, hconv, hdb', hst⟩ := deleteTail_ok hrun
    simp only [moved, hverb] at hroots
    obtain ⟨hact, hpre⟩ := delete_converges hs hb hbases hdb' (hst _) hroots hconv
    exact ⟨hact hfollows.1, fun hp => hpre (hpurges hp).1 (hpurges hp).2 (hfollows.2 hp)⟩

variable [PersistentItem α]

theorem probeTail_archive (hverb : w.verb = .archive) : ProbeTail env baseID purges w
      (archiveTail env w.schema w.src true w.now archivedCol cascade) := by
  obtain ⟨hreg, ⟨col, hs⟩, rfl⟩ := onIdentity_cases hw
  have hroles : env.referencingRoles ≠ [] := ne_nil_of_mem hreg
  have htarget := baseLifecycleTarget_ok env hs hb hnk
  refine ⟨?_, ?_, every_archiveTail quiet_roots fun _ _ => rfl, ?_⟩
  · rw [archiveTail, convergeBaseProgram, if_pos rfl, archiveBaseProgram, htarget]
    exact kind_selectRoles hroles
  · rw [archiveTail, convergeBaseProgram, if_pos rfl, archiveBaseProgram, htarget]
    exact settledAfter_selectRoles
      (every_archiveBase quiet_settled (every_archiveEnd quiet_settled)) hroles
  · intro c db db' hfollows hlink hroots hbases hrun
    obtain ⟨st, db2, hconv, hdb', hst⟩ := archiveTail_ok hrun
    simp only [moved, hverb] at hroots
    obtain ⟨hact, hpre⟩ := archive_converges hs hb hbases hdb' (hst _) hroots hconv
    exact ⟨hact hfollows.1, fun hp => hpre (hfollows.2 hp)⟩

theorem probeTail_unarchive (hverb : w.verb = .unarchive) : ProbeTail env baseID purges w
      (archiveTail env w.schema w.src false w.now archivedCol cascade) := by
  obtain ⟨hreg, ⟨col, hs⟩, rfl⟩ := onIdentity_cases hw
  have htarget := baseLifecycleTarget_ok env hs hb hnk
  refine ⟨?_, ?_, every_archiveTail quiet_roots fun _ _ => rfl, ?_⟩
  · rw [archiveTail, convergeBaseProgram, if_neg Bool.false_ne_true, reactivateBaseProgram, htarget]
    rfl
  · rw [archiveTail, convergeBaseProgram, if_neg Bool.false_ne_true, reactivateBaseProgram, htarget]
    exact fun v => every_reactivateBase quiet_settled (every_archiveEnd quiet_settled) _
  · intro c db db' hfollows hlink hroots hbases hrun
    obtain ⟨st, db2, hconv, hdb', hst⟩ := archiveTail_ok hrun
    simp only [moved, hverb] at hroots
    obtain ⟨hact, hpre⟩ := unarchive_converges hs hb hbases hdb' (hst _) hreg hlink hroots hconv
    exact ⟨hact, fun hp => hpre (hfollows.2 hp)⟩

variable (env) in
theorem beforeRow_program (hverb : w.verb ≠ .update)
    (hpurges : purges → base.orphanPolicy = .deleteWhenUnreferenced ∧
      w.verb.roleVerb.vetoed = false) :
    BeforeRow w (ProbeTail env baseID purges w) (w.program env) := by
  rw [program]
  split
  · rename_i hupdate
    exact absurd hupdate hverb
  iterate 2
    · rename_i hverb
      rw [archiveProgram]
      split
      · exact beforeRow_failed _
      · refine beforeRow_read fun _ => beforeRow_read fun v => beforeRow_plain (fun d => ?_)
          (beforeRow_execExpectingRow (fun d => ?_) ?_)
        · exact spine_cascadeChildren ..
        · simp [moved, hverb]
        · first
          | exact probeTail_archive hw hb hnk hverb
          | exact probeTail_unarchive hw hb hnk hverb
  · rename_i vetoed hdelete
    refine beforeRow_plain (fun d => ?_) (beforeRow_read fun v => beforeRow_execDeleteRoot
      (fun d => ?_) (probeTail_delete hw hb hnk hdelete fun hp => ?_))
    · exact spine_deleteChildren ..
    · simp [moved, hdelete]
    · obtain ⟨hpolicy, hveto⟩ := hpurges hp
      rw [hdelete] at hveto
      exact ⟨hpolicy, hveto⟩

end

/-! ### Runs -/

/-- How far a transaction is with the identity: one that cannot commit, one that has not written its
role row, one that has and is about to probe, and one past its probe, which leaves the base in step
when it runs alone from here on. -/
inductive LifecyclePhase (env : Env) (base : BaseSchema) (baseID : String) (purges : Prop)
    (c : Database) (t : Transaction (RowWrite α) StatementKind Database RowKey WriteError) : Prop
  | doomed (hnk : (sharedBaseValues base t.work.src).2 = "") (hprogram : Doomed t.program)
  | before (hnk : (sharedBaseValues base t.work.src).2 ≠ "") (hrow : t.work.Linked baseID c)
      (hwrites : ∀ d, (t.writes d).roots = d.roots ∧ (t.writes d).bases = d.bases)
      (hheld : holdsRoleRow t = false)
      (hprogram : BeforeRow t.work (ProbeTail env baseID purges t.work) t.program)
  | written (hnk : (sharedBaseValues base t.work.src).2 ≠ "") (hrow : t.work.Linked baseID c)
      (hwrites : ∀ d, (t.writes d).roots = (t.work.moved d).roots ∧ (t.writes d).bases = d.bases)
      (hheld : holdsRoleRow t = true)
      (hprogram : ProbeTail env baseID purges t.work t.program)
  | probed (hnk : (sharedBaseValues base t.work.src).2 ≠ "") (hrow : t.work.Linked baseID c)
      (hwrites : ∀ d, (t.writes d).roots = (t.work.moved d).roots)
      (hheld : holdsRoleRow t = true) (hprogram : t.program.Every Settled)
      (hends : ∀ db', t.finish c = .ok db' → Follows env baseID purges db')

/-- The transaction is past its probe. -/
structure PastProbe (base : BaseSchema)
    (t : Transaction (RowWrite α) StatementKind Database RowKey WriteError) : Prop where
  hnk : (sharedBaseValues base t.work.src).2 ≠ ""
  hheld : holdsRoleRow t = true
  hkind : t.program.kind ≠ some .probe

/-- Two transactions are on different rows, and one of them at most is past its probe. -/
def Apart (base : BaseSchema)
    (t u : Transaction (RowWrite α) StatementKind Database RowKey WriteError) : Prop :=
  t.work.key ≠ u.work.key ∧ ¬(PastProbe base t ∧ PastProbe base u)

theorem kind_of_settled {p : TxProgram} (h : p.Every Settled) : p.kind ≠ some .probe := by
  cases p with
  | commit => simp [Program.kind]
  | stmt kind locks check write next => exact fun he => h.1.1 (Option.some.inj he)

variable {base : BaseSchema} {baseID : String}
  {t : Transaction (RowWrite α) StatementKind Database RowKey WriteError}

variable {db c : Database}

theorem RowWrite.linked_of_loads {env : Env} {col : String} {w : RowWrite α}
    (hs : w.schema.sharedBase = some ⟨base, col⟩) (h : w.roleWrite.loads env db = true) :
    w.Linked (env.baseIDOf base w.src) db := by
  obtain ⟨schema, verb, src, now⟩ := w
  simp only at hs
  cases verb <;>
    simp only [roleWrite, RowVerb.roleVerb, RoleWrite.loads, hs, Option.all_some,
      Option.any_eq_true, Bool.and_eq_true] at h <;>
    obtain ⟨r, hr, -, hlink⟩ := h <;>
    exact ⟨r, hr, of_decide_eq_true hlink⟩

theorem RowWrite.moved_congr (w : RowWrite α) {db' : Database} (h : db'.roots = db.roots) :
    (w.moved db').roots = (w.moved db).roots := by
  rw [moved, moved]
  split <;> simp only [writeRoot, deleteRoot, setRoots, h]

theorem RowWrite.Linked.of_moved {w u : RowWrite α} (h : u.Linked baseID c) (hne : w.key ≠ u.key)
    (hroots : db.roots = (w.moved c).roots) : u.Linked baseID db := by
  have hrow : ¬(w.schema.table = u.schema.table ∧ w.src.id = u.src.id) := by
    rintro ⟨ht, hi⟩
    exact hne (by rw [key, key, ht, hi])
  have hsame : db.root u.schema.table u.src.id = c.root u.schema.table u.src.id := by
    rw [root, hroots, ← root]
    rw [moved]
    split
    · rfl
    · exact root_writeRoot_of_ne hrow
    · exact root_writeRoot_of_ne hrow
    · rw [root_deleteRoot, if_neg hrow]
  obtain ⟨r, hr, hlink⟩ := h
  exact ⟨r, hsame.trans hr, hlink⟩

theorem holdsRoleRow_taken (locks : Database → List RowKey)
    (write : Database → Database → Database) (next : Database → TxProgram) :
    holdsRoleRow (t.taken c locks write next) =
      (holdsRoleRow t || (locks (t.writes c)).any RowKey.isRoot) := by
  rw [holdsRoleRow, Transaction.taken, any_append, holdsRoleRow]

theorem holdsRoleRow_of_key (h : t.work.key ∈ t.held) : holdsRoleRow t = true :=
  any_eq_true.2 ⟨_, h, rfl⟩

/-- A statement of a transaction that has not written its row: it still has not, or it has now. -/
theorem BeforeRow.step {T : TxProgram → Prop} {kind : StatementKind}
    {locks : Database → List RowKey} {check : Database → Option WriteError}
    {write : Database → Database → Database} {next : Database → TxProgram}
    (h : BeforeRow t.work T t.program) (hrow : t.work.Linked baseID c)
    (hwrites : ∀ d, (t.writes d).roots = d.roots ∧ (t.writes d).bases = d.bases)
    (hp : t.program = .stmt kind locks check write next) (hc : check (t.writes c) = none) :
    ((locks (t.writes c)).any RowKey.isRoot = false ∧
      (∀ d, ((t.taken c locks write next).writes d).roots = d.roots ∧
        ((t.taken c locks write next).writes d).bases = d.bases) ∧
      BeforeRow t.work T (t.taken c locks write next).program) ∨
    (t.work.key ∈ (t.taken c locks write next).held ∧
      (∀ d, ((t.taken c locks write next).writes d).roots = (t.work.moved d).roots ∧
        ((t.taken c locks write next).writes d).bases = d.bases) ∧
      T (t.taken c locks write next).program) := by
  rw [hp] at h
  have hsome : ((t.writes c).root t.work.schema.table t.work.src.id).isSome = true := by
    obtain ⟨r, hr, -⟩ := hrow
    rw [root, (hwrites c).1, ← root, hr]
    rfl
  rcases h _ hsome hc with ⟨hlocks, hsame, hnext⟩ | ⟨hkey, hmoved, hnext⟩
  · exact .inl ⟨hlocks, fun d => ⟨(hsame _).1.trans (hwrites d).1,
      (hsame _).2.trans (hwrites d).2⟩, hnext⟩
  · exact .inr ⟨mem_append_right _ hkey, fun d =>
      ⟨(hmoved _).1.trans (t.work.moved_congr (hwrites d).1), (hmoved _).2.trans (hwrites d).2⟩,
      hnext⟩

theorem PastProbe.of_phase {env : Env} {purges : Prop} (hp : t.program = .commit)
    (h : LifecyclePhase env base baseID purges c t) :
    PastProbe base t ∧ (∀ d, (t.writes d).roots = (t.work.moved d).roots) ∧
      Follows env baseID purges (t.writes c) := by
  cases h with
  | doomed _ hprogram | before _ _ _ _ hprogram => rw [hp] at hprogram; exact hprogram.elim
  | written _ _ _ _ hprogram => exact absurd hprogram.kind (by rw [hp]; simp [Program.kind])
  | probed hnk _ hwrites hheld hprogram hends =>
    exact ⟨⟨hnk, hheld, kind_of_settled hprogram⟩, hwrites, hends _ (by
      rw [Transaction.finish, hp, Program.run_commit])⟩

/-- **Step.** What each step of an interleaving owes to the identity. -/
theorem lifecycleModular [PersistentItem α] (env : Env) {purges : Prop}
    (hb : base.archivedAt.isSome = true)
    (hpolicy : purges → base.orphanPolicy = .deleteWhenUnreferenced) :
    Modular (lifecycleSystem (α := α) env)
      (fun s a => ProbesAlone s a ∧ StartsOn env base baseID a ∧ (purges → Unvetoed a))
      (fun c _ => Follows env baseID purges c) (LifecyclePhase env base baseID purges)
      (Apart base) where
  symm h := ⟨h.1.symm, fun hp => h.2 hp.symm⟩
  start {s w} hw hC _ := by
    obtain ⟨-, hon, hveto⟩ := hC
    simp only [lifecycleSystem, Bool.and_eq_true, decide_eq_true_eq] at hw
    obtain ⟨⟨hverb, hload⟩, -⟩ := hw
    obtain ⟨hreg, ⟨col, hs⟩, hid⟩ := onIdentity_cases hon
    by_cases hnk : (sharedBaseValues base w.src).2 = ""
    · exact .doomed hnk (doomed_program hs hb hverb hnk)
    · exact .before hnk (hid ▸ linked_of_loads hs hload) (fun _ => ⟨rfl, rfl⟩) rfl
        (beforeRow_program env hon hb hnk hverb fun hp => ⟨hpolicy hp, hveto hp⟩)
  start_pair {s w i t} hw ht := by
    simp only [lifecycleSystem, Bool.and_eq_true, all_eq_true] at hw
    have hkey : t.work.key ≠ w.key := by simpa using hw.2 t (mem_of_getElem? ht.1)
    refine ⟨hkey, fun h => ?_⟩
    exact absurd h.2.hheld (by simp [holdsRoleRow, System.fresh])
  take {c h t kind locks check write next} hG ht hp hc := by
    cases ht with
    | doomed hnk hprogram =>
      rw [hp] at hprogram
      exact .doomed hnk (hprogram _ hc)
    | before hnk hrow hwrites hheld hprogram =>
      rcases hprogram.step hrow hwrites hp hc with ⟨hlocks, hsame, hnext⟩ | ⟨hkey, hmoved, hnext⟩
      · exact .before hnk hrow hsame (by rw [holdsRoleRow_taken, hheld, hlocks]; rfl) hnext
      · exact .written hnk hrow hmoved (holdsRoleRow_of_key hkey) hnext
    | written hnk hrow hwrites hheld hprogram =>
      obtain ⟨-, hsame⟩ := Transaction.preserves_taken hp hprogram.preserves c
      have hsettled := hprogram.settled
      rw [hp] at hsettled
      refine .probed hnk hrow (fun d => (hsame d).trans (hwrites d).1)
        (by rw [holdsRoleRow_taken, hheld]; rfl) (hsettled _) fun db' hdb' => ?_
      rw [Transaction.finish_taken hp hc] at hdb'
      exact hprogram.ends hG hrow (hwrites c).1 (hwrites c).2 hdb'
    | probed hnk hrow hwrites hheld hprogram hends =>
      rw [hp] at hprogram
      refine .probed hnk hrow (fun d => (hprogram.1.2 _ _).trans (hwrites d))
        (by rw [holdsRoleRow_taken, hheld]; rfl) (hprogram.2 _) fun db' hdb' => ?_
      exact hends db' ((Transaction.finish_taken hp hc).symm.trans hdb')
  take_pair {s i j t u kind locks check write next} hij ht hu hC hPt hPu hR hp hc := by
    refine ⟨hR.1, fun ⟨hpast, hpast'⟩ => ?_⟩
    cases hPt with
    | doomed hnk _ => exact hpast.hnk hnk
    | before _ hrow hwrites hheld hprogram =>
      rcases hprogram.step hrow hwrites hp hc with ⟨hlocks, -⟩ | ⟨-, -, hnext⟩
      · have := hpast.hheld
        rw [holdsRoleRow_taken, hheld, hlocks] at this
        cases this
      · exact hpast.hkind hnext.kind
    | written _ _ _ _ hprogram =>
      -- the statement is the probe, and no other transaction has written its row
      have halone := hC.1 t ht.1 hprogram.kind (u, j) (mk_mem_zipIdx_iff_getElem?.2 hu.1)
        hij.symm hu.2
      rw [hpast'.hheld] at halone
      cases halone
    | probed hnk _ _ hheld hprogram _ => exact hR.2 ⟨⟨hnk, hheld, kind_of_settled hprogram⟩, hpast'⟩
  commit {c h t} _ ht hp := (PastProbe.of_phase hp ht).2.2
  interfere {c h t u} _ ht hu hR _ hp := by
    obtain ⟨hpast, hwrites, -⟩ := PastProbe.of_phase hp ht
    cases hu with
    | doomed hnk hprogram => exact .doomed hnk hprogram
    | before hnk hrow hwrites' hheld hprogram =>
      exact .before hnk (hrow.of_moved hR.1 (hwrites c)) hwrites' hheld hprogram
    | written hnk hrow hwrites' hheld hprogram =>
      exact .written hnk (hrow.of_moved hR.1 (hwrites c)) hwrites' hheld hprogram
    | probed hnk _ _ hheld hprogram _ =>
      exact absurd ⟨hpast, hnk, hheld, kind_of_settled hprogram⟩ hR.2

/-- **The base follows its roles, concurrently.** From a store in which the base is in step with its
roles, every interleaving of archives, unarchives and hard deletes of different role rows of the
identity keeps it in step, provided no transaction takes the probe of its lifecycle step while
another one has an uncommitted write of its role row. -/
theorem base_follows_interleaved [PersistentItem α] (env : Env) (base : BaseSchema)
    (baseID : String) (db₀ : Database) (as : List (Action (RowWrite α) WriteError))
    (s : WriteStore α) (hb : base.archivedAt.isSome = true)
    (hon : ∀ a ∈ as, StartsOn env base baseID a) (hactive : ActiveWithRoles env baseID db₀)
    (hprobes : (lifecycleSystem env).machine.Along ProbesAlone { committed := db₀ } as)
    (hrun : (lifecycleSystem env).machine.run { committed := db₀ } as = some s) :
    ActiveWithRoles env baseID s.committed ∧
    (base.orphanPolicy = .deleteWhenUnreferenced → PresentWithRoles env baseID db₀ →
      (∀ a ∈ as, Unvetoed a) → PresentWithRoles env baseID s.committed) := by
  have hend : ∀ purges : Prop, (purges → base.orphanPolicy = .deleteWhenUnreferenced) →
      (purges → ∀ a ∈ as, Unvetoed a) → (purges → PresentWithRoles env baseID db₀) →
      Follows env baseID purges s.committed := by
    intro purges hpolicy hveto hpresent
    exact ((lifecycleModular env hb hpolicy).run (Split.init ⟨hactive, hpresent⟩)
      (hprobes.and_forall fun a ha => ⟨hon a ha, fun hp => hveto hp a ha⟩) hrun).store
  refine ⟨(hend False False.elim False.elim False.elim).1, fun hpolicy hpresent hveto => ?_⟩
  exact (hend True (fun _ => hpolicy) (fun _ => hveto) fun _ => hpresent).2 trivial

/-- A person with a student row and a teacher row. -/
def studentAndTeacher : Database where
  roots t := if t = "student" then
      ⟨[{ id := "s0", parentID := "person-7", fields := [] }], by decide⟩
    else if t = "teacher" then ⟨[{ id := "person-7", fields := [] }], by decide⟩
    else .empty
  bases := ⟨[{ id := "person-7", fields := [] }], by decide⟩

def deleteStudent : RowWrite Address := ⟨student, .delete false, roleOf7 "s0" 1 "Ann", .ms 2⟩

def deleteTeacher : RowWrite Address := ⟨teacher, .delete false, roleOf7 "person-7" 1 "Ann", .ms 3⟩

/-- Both deletes start, the first one deletes its row, and the second one stops before its own. -/
def deletesApart : List (Action (RowWrite Address) WriteError) :=
  [.start deleteStudent, .start deleteTeacher] ++ replicate 3 (.exec 0) ++
    replicate 2 (.exec 1) ++ replicate 8 (.exec 0) ++ replicate 8 (.exec 1)

theorem deletesApart_purge_base :
    ∃ s ∈ (lifecycleSystem personEnv).machine.run { committed := studentAndTeacher } deletesApart,
      ActiveWithRoles personEnv "person-7" s.committed ∧
      PresentWithRoles personEnv "person-7" s.committed ∧ s.committed.base "person-7" = none := by
  have hon : ∀ a ∈ deletesApart, StartsOn personEnv person "person-7" a := by
    intro a ha
    simp only [deletesApart, mem_append, mem_cons, not_mem_nil, or_false, mem_replicate] at ha
    rcases ha with ((((rfl | rfl) | ⟨-, rfl⟩) | ⟨-, rfl⟩) | ⟨-, rfl⟩) | ⟨-, rfl⟩
    · exact roleOf7_onIdentity student_registered ..
    · exact roleOf7_onIdentity teacher_registered ..
    all_goals trivial
  refine Machine.exists_run (fun s => s.committed.base "person-7" = none) (by decide +kernel)
    fun s hs hnone => ?_
  obtain ⟨hactive, hpresent⟩ := base_follows_interleaved personEnv person "person-7"
    studentAndTeacher deletesApart s rfl hon (by decide +kernel) (by decide +kernel) hs
  exact ⟨hactive, hpresent rfl (by decide +kernel) (by decide), hnone⟩

/-- Two hard deletes of the last two roles of an identity, each probing before the other commits:
each still sees the row of the other, and the base survives, active and without a role. -/
theorem deletes_leave_base :
    ActiveWithRoles personEnv "person-7" studentAndTeacher ∧
    PresentWithRoles personEnv "person-7" studentAndTeacher ∧
    ∃ s ∈ (lifecycleSystem personEnv).machine.run { committed := studentAndTeacher }
        ([.start deleteStudent, .start deleteTeacher] ++ replicate 3 (.exec 0) ++
          replicate 5 (.exec 1) ++ replicate 8 (.exec 0) ++ replicate 4 (.exec 1)),
      s.transactions.map (·.outcome) = [some (.ok ()), some (.ok ())] ∧
      anyRoleRowReferences personEnv s.committed "person-7" = false ∧
      (s.committed.base "person-7").map (·.archivedAt) = some none := by
  decide +kernel

end Omnicore.Write
