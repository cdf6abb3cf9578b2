import Omnicore.Lib.ReadCommitted
import Omnicore.Write.BaseLifecycle

/-!
# The verbs as statements

The transactions of update, archive, unarchive and hard delete, statement by statement: what each
statement reads, which row lock it takes, and what it leaves for the next one.  An `UPDATE` or a
`DELETE` locks a row it matches and no other.  A guarded `UPDATE` that matches no row is followed by
one probe that tells a vanished row from a moved one.

The statements on child rows are run as one and take no lock here: no other statement of the model
reads a child row, and the ids a transaction mints are its own.

## Main results

* `RowWrite.run_program` : alone, the statements of a verb are the verb.
-/

namespace Omnicore.Write

open Omnicore.Core Domain ReadCommitted Program

/-- The rows a statement can lock. -/
inductive RowKey where
  | root (table id : String)
  | base (baseID : String)
  deriving DecidableEq, Repr

/-- What a statement is for; `probe` is the first read a verb bases its lifecycle step on. -/
inductive StatementKind where
  | check
  | guard
  | classify
  | probe
  | read
  | write
  deriving DecidableEq, Repr

/-- The statements of a verb. -/
abbrev TxProgram := Program StatementKind Database RowKey WriteError

/-- The verbs on an existing row. -/
inductive RowVerb where
  | update
  | archive
  | unarchive
  | delete (vetoed : Bool)
  deriving DecidableEq, Repr

/-- The verb of the write engine. -/
def RowVerb.roleVerb : RowVerb → RoleVerb
  | .update => .update
  | .archive => .archive
  | .unarchive => .unarchive
  | .delete vetoed => .delete vetoed

/-- One write of an existing row. -/
structure RowWrite (α : Type) where
  schema : SchemaDecl
  verb : RowVerb
  src : Entity α
  now : Instant

/-- The same write, of the write engine. -/
def RowWrite.roleWrite {α : Type} (w : RowWrite α) : RoleWrite α :=
  ⟨w.schema, w.verb.roleVerb, w.src, w.now⟩

/-- The row a write is on. -/
def RowWrite.key {α : Type} (w : RowWrite α) : RowKey := .root w.schema.table w.src.id

/-! ### Statements -/

/-- A statement that touches neither a root row nor a base row that is there. -/
def plain (f : Database → Database) (next : TxProgram) : TxProgram :=
  .write .write (fun _ => []) (fun _ d => f d) next

/-- A refusal. -/
def failed (e : WriteError) : TxProgram := .read .check (fun _ => .error e) fun _ => .commit

/-- A check that reads nothing of the store. -/
def demand (test : Except WriteError Unit) (next : TxProgram) : TxProgram :=
  match test with
  | .error e => failed e
  | .ok _ => next

/-- The guarded `UPDATE` matches the row. -/
def Database.matchesRoot (db : Database) (table id : String) (rev : ℕ) : Bool :=
  (db.root table id).any fun r => rev = 0 || r.revision = rev

open Database

/-- The probe after an `UPDATE` that matched nothing. -/
def classifyMissing (table context field id : String) (rev : ℕ) : TxProgram :=
  .read .classify (fun v => .error (if rev ≠ 0 ∧ (v.root table id).isSome
    then .concurrentModification context field else .notFound context field id)) fun _ => .commit

/-- An `UPDATE` that must match its row. -/
def execExpectingRow (table context field id : String) (rev : ℕ) (f : RootRow → RootRow)
    (next : TxProgram) : TxProgram :=
  .stmt .guard (fun v => if v.matchesRoot table id rev then [.root table id] else [])
    (fun _ => none) (fun v d => if v.matchesRoot table id rev then d.writeRoot table id f else d)
    fun v => if v.matchesRoot table id rev then next
      else classifyMissing table context field id rev

/-- `DELETE` of a root row. -/
def execDeleteRoot (table id : String) (next : TxProgram) : TxProgram :=
  .write .guard (fun v => if (v.root table id).isSome then [.root table id] else [])
    (fun v d => if (v.root table id).isSome then d.deleteRoot table id else d) next

/-- `UPDATE` of the base row where `p` holds. -/
def execUpdateBase (baseID : String) (p : BaseRow → Bool) (f : BaseRow → BaseRow)
    (next : TxProgram) : TxProgram :=
  .write .write (fun v => if (v.base baseID).any p then [.base baseID] else [])
    (fun v d => if (v.base baseID).any p then d.updateBase baseID p f else d) next

/-- `DELETE` of the base row. -/
def execDeleteBase (baseID : String) (next : TxProgram) : TxProgram :=
  .write .write (fun v => if (v.base baseID).isSome then [.base baseID] else [])
    (fun v d => if (v.base baseID).isSome then d.deleteBase baseID else d) next

/-- One `SELECT` for each registered role, up to the first that finds a row; `kind` is that of the
first one. -/
def selectRoles (kind : StatementKind) (test : Database → SchemaDecl → Bool)
    (next : Bool → TxProgram) : List SchemaDecl → TxProgram
  | [] => next false
  | rr :: roles => .read kind (fun _ => .ok ()) fun v =>
    if test v rr then next true else selectRoles .read test next roles

variable {α : Type} (env : Env)

/-! ### The steps of the verbs -/

/-- `archiveBaseIfNoActiveRole`. -/
def archiveBaseProgram (kind : StatementKind) (schema : SchemaDecl) (src : Entity α) (now : Instant)
    (next : Option Instant → TxProgram) : TxProgram :=
  match baseLifecycleTarget env schema src with
  | .error e => failed e
  | .ok none => next none
  | .ok (some (base, baseID)) =>
    selectRoles kind (fun v rr => findActiveRoleByFK v rr baseID) (fun active =>
      if active then next none
      else execUpdateBase baseID (·.archivedAt.isNone)
          (fun r => { r with archivedAt := some now }) <|
        plain (fun d => base.children.foldl (fun d bc => archiveCascade d bc baseID now) d) <|
        next (some now)) env.referencingRoles

variable (schema : SchemaDecl) (src : Entity α) (archive : Bool) (now : Instant) (vetoed : Bool)
  (next : Option Instant → TxProgram)

/-- `reactivateBaseIfArchived`: the stamp of the base row is read first. -/
def reactivateBaseProgram : TxProgram :=
  match baseLifecycleTarget env schema src with
  | .error e => failed e
  | .ok none => next none
  | .ok (some (base, baseID)) =>
    .read .probe (fun _ => .ok ()) fun v =>
      match (v.base baseID).bind BaseRow.archivedAt with
      | none => next none
      | some stamp =>
        plain (fun d =>
          base.children.foldl (fun d bc => unarchiveCascade d bc baseID (some stamp)) d) <|
        execUpdateBase baseID (·.archivedAt.isSome) (fun r => { r with archivedAt := none }) <|
        next (some stamp)

/-- `fillBaseMeta`. -/
def fillBaseMetaProgram (ids : OutboxMeta) (next : OutboxMeta → TxProgram) : TxProgram :=
  match schema.sharedBase with
  | none => next ids
  | some link =>
    if (sharedBaseValues link.base src).2 = "" then next ids
    else
      execUpdateBase (env.baseIDOf link.base src) (fun _ => true) id <|
      .read .read (fun _ => .ok ()) fun v =>
        next { ids with
          baseID := env.baseIDOf link.base src
          baseRevision := v.readBaseRevision (env.baseIDOf link.base src) }

/-- `outboxMetaFor`. -/
def outboxMetaProgram (id : String) (next : OutboxMeta → TxProgram) : TxProgram :=
  .read .read (fun _ => .ok ()) fun v =>
    fillBaseMetaProgram env schema src
      { id, revision := (v.readRevisionCreatedAt schema.table id).1
        createdAt := (v.readRevisionCreatedAt schema.table id).2 } next

/-- The outbox row, and the commit. -/
def writeOutboxProgram (table : String) (event : EventType) (id : String) (payload : Payload) :
    TxProgram :=
  plain (·.writeOutbox table event id payload) .commit

section

variable [PersistentItem α]

/-- The child rows of the aggregate, under the ids the transaction minted when it wrote them. -/
def childrenWritten (schema : SchemaDecl) (root : Option (AggregateRoot α)) (rootID baseID : String)
    (now : Instant) (v d : Database) : Database :=
  match writeChildren env { d with minted := v.minted } schema root rootID baseID now with
  | .ok (d', _) => { d' with minted := max d.minted d'.minted }
  | .error _ => d

/-- `writeChildren`. -/
def writeChildrenProgram (schema : SchemaDecl) (root : Option (AggregateRoot α))
    (rootID baseID : String) (now : Instant) (next : Option (AggregateRoot α) → TxProgram) :
    TxProgram :=
  .stmt .write (fun _ => [])
    (fun v => match writeChildren env v schema root rootID baseID now with
      | .error e => some e
      | .ok _ => none)
    (childrenWritten env schema root rootID baseID now)
    fun v => match writeChildren env v schema root rootID baseID now with
      | .error _ => .commit
      | .ok (_, root) => next root

/-- `updateAggregate`. -/
def updateAggregateProgram (schema : SchemaDecl) (src : Entity α) (now : Instant) : TxProgram :=
  execExpectingRow schema.table src.name idField src.id src.revision
    (updatedRootRow schema src now) <|
  writeChildrenProgram env schema src.root src.id "" now fun root =>
  outboxMetaProgram env schema src src.id fun ids =>
  writeOutboxProgram schema.table .updated src.id
    (buildWritePayload schema src root .updated now {} (writeFields schema.fields src.values) ids)

/-- `updateWithBase`. -/
def updateWithBaseProgram (schema : SchemaDecl) (link : SharedBaseLink) (src : Entity α)
    (now : Instant) : TxProgram :=
  demand (requireNaturalKey link.base src) <|
  .read .check (guardNaturalKeyImmutable · schema link.base src.name src.id
    (env.baseIDOf link.base src)) fun _ =>
  execExpectingRow schema.table src.name idField src.id src.revision
    (updatedRootRow schema src now) <|
  writeChildrenProgram env schema src.root src.id (env.baseIDOf link.base src) now fun root =>
  execUpdateBase (env.baseIDOf link.base src) (fun _ => true) (fun r =>
    { r with
      fields := r.fields.setAll (sharedBaseValues link.base src).1
      updatedAt := if link.base.updatedAt.isSome then some now else r.updatedAt }) <|
  .read .read (fun _ => .ok ()) fun v =>
  reactivateBaseProgram env schema src fun _ =>
  .read .read (fun _ => .ok ()) fun v' =>
  writeOutboxProgram schema.table .updated src.id
    (buildWritePayload schema src root .updated now {} (writeFields schema.fields src.values)
      { id := src.id, revision := (v'.readRevisionCreatedAt schema.table src.id).1
        createdAt := (v'.readRevisionCreatedAt schema.table src.id).2
        baseID := env.baseIDOf link.base src
        baseRevision := v.readBaseRevision (env.baseIDOf link.base src) })

end

/-- The base step of an archive verb. -/
def convergeBaseProgram : TxProgram :=
  if archive then archiveBaseProgram env .probe schema src now next
  else reactivateBaseProgram env schema src next

/-- The event of an archive verb. -/
def archiveEnd [PersistentItem α] (schema : SchemaDecl) (src : Entity α) (archive : Bool)
    (now : Instant) (archivedCol : String) (cascade baseCascade : Option Instant) : TxProgram :=
  outboxMetaProgram env schema src src.id fun ids =>
  writeOutboxProgram schema.table (archiveEvent archive) src.id
    (buildWritePayload schema src src.root (archiveEvent archive) now
      { own := cascade, base := baseCascade }
      (AssocMap.set (writeFields schema.fields src.values) archivedCol
        (if archive then .time now else .null)) ids)

/-- What an archive verb does after its guarded update. -/
def archiveTail [PersistentItem α] (schema : SchemaDecl) (src : Entity α) (archive : Bool)
    (now : Instant) (archivedCol : String) (cascade : Option Instant) : TxProgram :=
  convergeBaseProgram env schema src archive now
    (archiveEnd env schema src archive now archivedCol cascade)

/-- `archiveWrite`. -/
def archiveProgram [PersistentItem α] (schema : SchemaDecl) (src : Entity α) (archive : Bool)
    (now : Instant) : TxProgram :=
  match schema.archivedAt with
  | none => failed (.failed ("db: " ++ src.name ++ " did not declare ArchivedAt in its " ++
      "TableSchema — archive/unarchive is unavailable"))
  | some archivedCol =>
    .read .check (fun v => bif archive then .ok ()
      else vetoUnarchiveWithActiveSibling env v schema src src.id) fun _ =>
    .read .read (fun _ => .ok ()) fun v =>
    plain (cascadeChildren · schema src.root src.id archive
      (cascadeStamp v schema src.id archive now)) <|
    execExpectingRow schema.table src.name idField src.id src.revision
      (archivedRootRow schema src archive now) <|
    archiveTail env schema src archive now archivedCol (cascadeStamp v schema src.id archive now)

/-- `convergeBaseAfterHardDelete`. -/
def convergeAfterDeleteProgram (next : Bool → TxProgram) : TxProgram :=
  match schema.sharedBase with
  | none => next false
  | some link =>
    if link.base.orphanPolicy = .deleteWhenUnreferenced then
      demand (requireNaturalKey link.base src) <|
      selectRoles .probe (fun v rr => (v.roots rr.table).rows.any
          (·.link rr = env.baseIDOf link.base src)) (fun referenced =>
        if referenced || vetoed then
          archiveBaseProgram env .read schema src now fun _ => next false
        else
          plain (fun d => link.base.children.foldl (fun d bc =>
            d.deleteChildRows bc.table (·.parentID = env.baseIDOf link.base src)) d) <|
          execDeleteBase (env.baseIDOf link.base src) <|
          plain (·.writeOutbox link.base.table .deleted (env.baseIDOf link.base src)
            { scalars := [(link.base.idColumn, .str (env.baseIDOf link.base src))]
              ids := { id := env.baseIDOf link.base src, basePurged := true } }) <|
          next true) env.referencingRoles
    else if link.base.archivedAt.isNone then next false
    else
      demand (requireNaturalKey link.base src) <|
      archiveBaseProgram env .probe schema src now fun _ => next false

/-- The base half of a DELETED event. -/
def deleteMetaProgram (ids : OutboxMeta) (next : OutboxMeta → TxProgram) : TxProgram :=
  if ids.basePurged then
    match schema.sharedBase with
    | none => next ids
    | some link => next (if (sharedBaseValues link.base src).2 = "" then ids
        else { ids with baseID := env.baseIDOf link.base src })
  else fillBaseMetaProgram env schema src ids next

/-- The event of a hard delete. -/
def deleteEnd (read : ℕ × Option Instant) (basePurged : Bool) : TxProgram :=
  deleteMetaProgram env schema src
    { id := src.id, revision := read.1, createdAt := read.2, basePurged } fun ids =>
  writeOutboxProgram schema.table .deleted src.id
    (buildDeletePayload schema src env.deterministicBaseID src.id ids)

/-- What a hard delete does after the root row is gone. -/
def deleteTail (read : ℕ × Option Instant) : TxProgram :=
  convergeAfterDeleteProgram env schema src now vetoed (deleteEnd env schema src read)

/-- `hardDelete`. -/
def hardDeleteProgram : TxProgram :=
  plain (fun d => schema.children.foldl
    (fun d child => d.deleteChildRows child.table (·.parentID = src.id)) d) <|
  .read .read (fun _ => .ok ()) fun v =>
  execDeleteRoot schema.table src.id <|
  deleteTail env schema src now vetoed (v.readRevisionCreatedAt schema.table src.id)

/-- The statements of a write. -/
def RowWrite.program [PersistentItem α] (w : RowWrite α) : TxProgram :=
  match w.verb with
  | .update => match w.schema.sharedBase with
    | none => updateAggregateProgram env w.schema w.src w.now
    | some link => updateWithBaseProgram env w.schema link w.src w.now
  | .archive => archiveProgram env w.schema w.src true w.now
  | .unarchive => archiveProgram env w.schema w.src false w.now
  | .delete vetoed => hardDeleteProgram env w.schema w.src w.now vetoed

/-! ### Alone, the statements are the verb -/

section

variable {env schema src archive now vetoed next} {db : Database}

theorem run_plain (f : Database → Database) (next : TxProgram) :
    (plain f next).run db = next.run (f db) := rfl

theorem run_demand (test : Except WriteError Unit) (next : TxProgram) :
    (demand test next).run db = test >>= fun _ => next.run db := by
  cases test <;> rfl

theorem run_readOk (kind : StatementKind) (next : Database → TxProgram) :
    (read kind (fun _ => .ok ()) next).run db = (next db).run db := rfl

variable {table id : String}

theorem updateRoot_eq (context field : String) (rev : ℕ) (f : RootRow → RootRow) :
    db.updateRoot table context field id rev f =
      if db.matchesRoot table id rev then .ok (db.writeRoot table id f)
      else .error (if rev ≠ 0 ∧ (db.root table id).isSome then .concurrentModification context field
        else .notFound context field id) := by
  rw [updateRoot, matchesRoot]
  split
  · rename_i hr
    simp [hr]
  · rename_i r hr
    by_cases hrev : rev = 0 ∨ r.revision = rev
    · simp [hr, hrev]
    · have hne : rev ≠ 0 := fun h => hrev (.inl h)
      simp [hr, hne]

theorem run_execExpectingRow (context field : String) (rev : ℕ) (f : RootRow → RootRow)
    (next : TxProgram) :
    (execExpectingRow table context field id rev f next).run db =
      db.updateRoot table context field id rev f >>= fun d => next.run d := by
  simp only [execExpectingRow, run, updateRoot_eq]
  by_cases hm : db.matchesRoot table id rev = true
  · simp only [hm, if_true]
    rfl
  · simp only [hm, Bool.false_eq_true, if_false]
    rfl

theorem run_execDeleteRoot (next : TxProgram) :
    (execDeleteRoot table id next).run db = next.run (db.deleteRoot table id) := by
  rw [execDeleteRoot, run_write]
  split_ifs with h
  · rfl
  · have hrows : (db.roots table).delete (Keyed.key · = id) = db.roots table := by
      refine Table.delete_of_forall fun r hr => ?_
      simpa using Table.find_eq_none_iff.1 (by simpa [root] using h) r hr
    rw [deleteRoot, hrows, setRoots, Function.update_eq_self]

variable {p : BaseRow → Bool} {base : BaseSchema} {baseID : String}

theorem updateBase_of_not_any {db : Database} (h : ¬(db.base baseID).any p = true)
    (f : BaseRow → BaseRow) : db.updateBase baseID p f = db := by
  have hrows : db.bases.modify (fun r => r.id = baseID && p r) (BaseRow.written f)
      (BaseRow.key_written f) = db.bases := by
    refine Table.modify_of_forall _ _ fun r hr => ?_
    by_cases hid : r.id = baseID
    · have hfind : db.base baseID = some r := Table.find_eq_some_iff.2 ⟨hr, hid⟩
      simpa [hfind, hid] using h
    · simp [hid]
  have hnone : (db.base baseID).filter p = none := by
    cases hb : db.base baseID with
    | none => rfl
    | some r =>
      rw [hb] at h
      simp [Option.filter, show p r = false by simpa using h]
  rw [updateBase, hrows, hnone]
  simp

theorem run_execUpdateBase (f : BaseRow → BaseRow) (next : TxProgram) :
    (execUpdateBase baseID p f next).run db = next.run (db.updateBase baseID p f) := by
  rw [execUpdateBase, run_write]
  split_ifs with h
  · rfl
  · rw [updateBase_of_not_any h]

theorem run_execDeleteBase (next : TxProgram) :
    (execDeleteBase baseID next).run db = next.run (db.deleteBase baseID) := by
  rw [execDeleteBase, run_write]
  split_ifs with h
  · rfl
  · have hrows : db.bases.delete (Keyed.key · = baseID) = db.bases := by
      refine Table.delete_of_forall fun r hr => ?_
      simpa using Table.find_eq_none_iff.1 (by simpa [base] using h) r hr
    rw [deleteBase, hrows]

theorem run_selectRoles (kind : StatementKind) (test : Database → SchemaDecl → Bool)
    (next : Bool → TxProgram) (roles : List SchemaDecl) :
    (selectRoles kind test next roles).run db = (next (roles.any (test db))).run db := by
  induction roles generalizing kind with
  | nil => rfl
  | cons rr roles ih =>
    rw [selectRoles, run_readOk, List.any_cons]
    cases h : test db rr with
    | true => simp
    | false => simpa using ih .read

theorem run_archiveBaseProgram (kind : StatementKind) :
    (archiveBaseProgram env kind schema src now next).run db =
      archiveBaseIfNoActiveRole env db schema src now >>= fun p => (next p.1).run p.2 := by
  rw [archiveBaseProgram, archiveBaseIfNoActiveRole]
  rcases baseLifecycleTarget env schema src with e | _ | ⟨base, baseID⟩
  · rfl
  · rfl
  · simp only [run_selectRoles]
    show _ = (if anyActiveRole env db baseID then _ else _) >>= _
    rw [anyActiveRole]
    split_ifs
    · rfl
    · rw [run_execUpdateBase, run_plain]
      rfl

theorem run_reactivateBaseProgram :
    (reactivateBaseProgram env schema src next).run db =
      reactivateBaseIfArchived env db schema src >>= fun p => (next p.1).run p.2 := by
  rw [reactivateBaseProgram, reactivateBaseIfArchived]
  rcases baseLifecycleTarget env schema src with e | _ | ⟨base, baseID⟩
  · rfl
  · rfl
  · simp only [run_readOk]
    show _ = (match (db.base baseID).bind BaseRow.archivedAt with
      | none => _
      | some stamp => _) >>= _
    split
    · rfl
    · rw [run_plain, run_execUpdateBase]
      rfl

theorem run_fillBaseMetaProgram (ids : OutboxMeta) (next : OutboxMeta → TxProgram) :
    (fillBaseMetaProgram env schema src ids next).run db =
      (next (fillBaseMeta env db schema src ids).1).run (fillBaseMeta env db schema src ids).2 := by
  rw [fillBaseMetaProgram, fillBaseMeta]
  cases schema.sharedBase with
  | none => rfl
  | some link =>
    by_cases hnk : (sharedBaseValues link.base src).2 = ""
    · simp [hnk]
    · simp only [hnk, if_false]
      rw [run_execUpdateBase, run_readOk]
      rfl

theorem run_outboxMetaProgram (next : OutboxMeta → TxProgram) :
    (outboxMetaProgram env schema src id next).run db =
      (next (outboxMetaFor env db schema src id).1).run (outboxMetaFor env db schema src id).2 := by
  rw [outboxMetaProgram, run_readOk, run_fillBaseMetaProgram]
  rfl

theorem run_writeOutboxProgram (event : EventType) (payload : Payload) :
    (writeOutboxProgram table event id payload).run db =
      .ok (db.writeOutbox table event id payload) := rfl

section

variable [PersistentItem α]

theorem minted_writeChildren {db db' : Database} {schema : SchemaDecl}
    {root root' : Option (AggregateRoot α)} {rootID baseID : String} {now : Instant}
    (h : writeChildren env db schema root rootID baseID now = .ok (db', root')) :
    db.minted ≤ db'.minted := by
  cases root with
  | none => cases h; exact le_rfl
  | some ar =>
    obtain ⟨-, -, hle⟩ := writeChildren_invariant (P := fun db1 _ => db.minted ≤ db1.minted) le_rfl
      (fun _ _ _ hw h => hw.trans (writeChild_frame h).2.1) h
    exact hle

theorem run_writeChildrenProgram (root : Option (AggregateRoot α)) (rootID : String)
    (next : Option (AggregateRoot α) → TxProgram) :
    (writeChildrenProgram env schema root rootID baseID now next).run db =
      writeChildren env db schema root rootID baseID now >>= fun p => (next p.2).run p.1 := by
  simp only [writeChildrenProgram, run, childrenWritten]
  cases h : writeChildren env db schema root rootID baseID now with
  | error e => rfl
  | ok p =>
    simp only [max_eq_right (minted_writeChildren h)]
    rfl

theorem run_archiveTail (archivedCol : String) (cascade : Option Instant) :
    (archiveTail env schema src archive now archivedCol cascade).run db =
      convergeBaseAfterArchiveWrite env db schema src archive now >>= fun p =>
        .ok ((outboxMetaFor env p.2 schema src src.id).2.writeOutbox schema.table
          (archiveEvent archive) src.id
          (buildWritePayload schema src src.root (archiveEvent archive) now
            { own := cascade, base := p.1 }
            (AssocMap.set (writeFields schema.fields src.values) archivedCol
              (if archive then .time now else .null))
            (outboxMetaFor env p.2 schema src src.id).1)) := by
  rw [archiveTail, convergeBaseProgram, convergeBaseAfterArchiveWrite]
  cases archive
  all_goals simp only [if_true, Bool.false_eq_true, if_false, run_archiveBaseProgram,
    run_reactivateBaseProgram, archiveEnd, run_outboxMetaProgram, run_writeOutboxProgram]

theorem run_archiveProgram :
    (archiveProgram env schema src archive now).run db =
      archiveWrite env db schema src archive now := by
  rw [archiveProgram, archiveWrite]
  cases schema.archivedAt with
  | none => rfl
  | some archivedCol =>
    simp only [run_read, run_plain, run_execExpectingRow, run_archiveTail]
    rfl

theorem run_updateAggregateProgram :
    (updateAggregateProgram env schema src now).run db = updateAggregate env db schema src now := by
  simp only [updateAggregateProgram, run_execExpectingRow, run_writeChildrenProgram,
    run_outboxMetaProgram, run_writeOutboxProgram]
  rfl

theorem run_updateWithBaseProgram (link : SharedBaseLink) :
    (updateWithBaseProgram env schema link src now).run db =
      updateWithBase env db schema link src now := by
  simp only [updateWithBaseProgram, run_demand, run_read, run_execExpectingRow,
    run_writeChildrenProgram, run_execUpdateBase, run_reactivateBaseProgram,
    run_writeOutboxProgram]
  rfl

end

theorem run_convergeAfterDeleteProgram (next : Bool → TxProgram) :
    (convergeAfterDeleteProgram env schema src now vetoed next).run db =
      convergeBaseAfterHardDelete env db schema src now vetoed >>= fun p => (next p.1).run p.2 := by
  rw [convergeAfterDeleteProgram, convergeBaseAfterHardDelete]
  cases schema.sharedBase with
  | none => rfl
  | some link =>
    have harchive : (archiveBaseIfNoActiveRole env db schema src now >>= fun p =>
        (next false).run p.2) = (do
          return (false, (← archiveBaseIfNoActiveRole env db schema src now).2)) >>=
        fun p => (next p.1).run p.2 := by
      cases archiveBaseIfNoActiveRole env db schema src now <;> rfl
    by_cases hp : link.base.orphanPolicy = .deleteWhenUnreferenced
    · simp only [hp, if_true, not_true_eq_false, false_and, if_false, true_and, run_demand,
        run_selectRoles, bind_assoc]
      refine congrArg _ (funext fun _ => ?_)
      rw [← anyRoleRowReferences]
      cases anyRoleRowReferences env db (env.baseIDOf link.base src) with
      | true =>
        simp only [Bool.true_or, if_true, run_archiveBaseProgram]
        exact harchive
      | false =>
        cases vetoed with
        | true =>
          simp only [Bool.false_or, if_true, run_archiveBaseProgram]
          exact harchive
        | false =>
          simp only [Bool.false_or, Bool.false_eq_true, if_false, run_plain, run_execDeleteBase]
          rfl
    · simp only [hp, if_false, not_false_eq_true, true_and, false_and]
      by_cases harch : link.base.archivedAt.isNone = true
      · simp only [harch, if_true]
        rfl
      · simp only [harch, Bool.false_eq_true, if_false, run_demand, run_archiveBaseProgram,
          bind_assoc]
        rfl

theorem run_deleteMetaProgram (ids : OutboxMeta) (next : OutboxMeta → TxProgram) :
    (deleteMetaProgram env schema src ids next).run db =
      (next (deleteMeta env db schema src ids).1).run (deleteMeta env db schema src ids).2 := by
  rw [deleteMetaProgram, deleteMeta]
  split_ifs
  · cases schema.sharedBase <;> rfl
  · exact run_fillBaseMetaProgram ..

theorem run_deleteTail (read : ℕ × Option Instant) :
    (deleteTail env schema src now vetoed read).run db =
      convergeBaseAfterHardDelete env db schema src now vetoed >>= fun p =>
        let ids := deleteMeta env p.2 schema src
          { id := src.id, revision := read.1, createdAt := read.2, basePurged := p.1 }
        .ok (ids.2.writeOutbox schema.table .deleted src.id
          (buildDeletePayload schema src env.deterministicBaseID src.id ids.1)) := by
  simp only [deleteTail, run_convergeAfterDeleteProgram, deleteEnd, run_deleteMetaProgram,
    run_writeOutboxProgram]

theorem run_hardDeleteProgram :
    (hardDeleteProgram env schema src now vetoed).run db =
      hardDelete env db schema src now vetoed := by
  simp only [hardDeleteProgram, run_plain, run_readOk, run_execDeleteRoot, run_deleteTail]
  rfl

/-- **Alone, the statements of a verb are the verb.** -/
theorem RowWrite.run_program [PersistentItem α] (w : RowWrite α) :
    (w.program env).run db = w.roleWrite.commit env db := by
  obtain ⟨schema, verb, src, now⟩ := w
  cases verb with
  | update =>
    simp only [program, roleWrite, RowVerb.roleVerb, RoleWrite.commit, updateWrite]
    cases schema.sharedBase with
    | none => exact run_updateAggregateProgram ..
    | some link => exact run_updateWithBaseProgram ..
  | archive | unarchive => exact run_archiveProgram ..
  | delete vetoed => exact run_hardDeleteProgram ..

/-! ### What every statement of a step does -/

/-- A property of statements that any statement but a probe has when it leaves the root rows
alone. -/
structure Quiet (Q : StatementKind → (Database → Database → Database) → Prop) : Prop where
  intro : ∀ {kind write}, kind ≠ .probe → (∀ v d, (write v d).roots = d.roots) → Q kind write

theorem quiet_roots : Quiet fun _ write => ∀ v d, (write v d).roots = d.roots := ⟨fun _ h => h⟩

variable {Q : StatementKind → (Database → Database → Database) → Prop}

variable (hQ : Quiet Q)
include hQ

theorem every_plain {f : Database → Database} {next : TxProgram}
    (hf : ∀ d, (f d).roots = d.roots) (hnext : next.Every Q) : (plain f next).Every Q :=
  every_write (hQ.intro (by decide) fun _ => hf) hnext

theorem every_failed (e : WriteError) : (failed e).Every Q :=
  every_read (hQ.intro (by decide) fun _ _ => rfl) fun _ => trivial

theorem every_demand {test : Except WriteError Unit} {next : TxProgram}
    (hnext : next.Every Q) : (demand test next).Every Q := by
  cases test with
  | error e => exact every_failed hQ e
  | ok _ => exact hnext

theorem every_readOk {next : Database → TxProgram}
    (hnext : ∀ v, (next v).Every Q) : (read .read (fun _ => .ok ()) next : TxProgram).Every Q :=
  every_read (hQ.intro (by decide) fun _ _ => rfl) hnext

variable {f : BaseRow → BaseRow} {cascade : Option Instant} {read : ℕ × Option Instant}

theorem every_execUpdateBase {next : TxProgram} (hnext : next.Every Q) :
    (execUpdateBase baseID p f next).Every Q :=
  every_write (hQ.intro (by decide) fun v d => by split_ifs <;> rfl) hnext

theorem every_execDeleteBase {next : TxProgram} (hnext : next.Every Q) :
    (execDeleteBase baseID next).Every Q :=
  every_write (hQ.intro (by decide) fun v d => by split_ifs <;> rfl) hnext

theorem every_selectRoles {kind : StatementKind} (hkind : Q kind fun _ d => d)
    {test : Database → SchemaDecl → Bool} {next : Bool → TxProgram}
    (hnext : ∀ b, (next b).Every Q) (roles : List SchemaDecl) :
    (selectRoles kind test next roles).Every Q := by
  induction roles generalizing kind with
  | nil => exact hnext false
  | cons rr roles ih =>
    refine every_read hkind fun v => ?_
    split_ifs
    · exact hnext true
    · exact ih (hQ.intro (by decide) fun _ _ => rfl)

theorem every_archiveBase (hnext : ∀ st, (next st).Every Q) (active : Bool) :
    (if active then next none
      else execUpdateBase baseID (·.archivedAt.isNone)
          (fun r => { r with archivedAt := some now }) <|
        plain (fun d => base.children.foldl (fun d bc => archiveCascade d bc baseID now) d) <|
        next (some now)).Every Q := by
  split_ifs
  · exact hnext none
  · refine every_execUpdateBase hQ (every_plain hQ (fun d => ?_) (hnext _))
    exact List.foldl_frame roots (fun d bc => roots_of_spine (spine_archiveCascade d bc _ now)) _ _

theorem every_archiveBaseProgram {kind : StatementKind} (hkind : Q kind fun _ d => d)
    (hnext : ∀ st, (next st).Every Q) :
    (archiveBaseProgram env kind schema src now next).Every Q := by
  rw [archiveBaseProgram]
  split
  · exact every_failed hQ _
  · exact hnext none
  · exact every_selectRoles hQ hkind (every_archiveBase hQ hnext) _

theorem every_reactivateBase (hnext : ∀ st, (next st).Every Q) (st : Option Instant) :
    (match st with
      | none => next none
      | some stamp =>
        plain (fun d => base.children.foldl
          (fun d bc => unarchiveCascade d bc baseID (some stamp)) d) <|
        execUpdateBase baseID (·.archivedAt.isSome) (fun r => { r with archivedAt := none }) <|
        next (some stamp)).Every Q := by
  cases st with
  | none => exact hnext none
  | some stamp =>
    refine every_plain hQ (fun d => ?_) (every_execUpdateBase hQ (hnext _))
    exact List.foldl_frame roots (fun d bc => roots_of_spine (spine_unarchiveCascade d bc _ _)) _ _

theorem every_reactivateBaseProgram (hprobe : Q .probe fun _ d => d)
    (hnext : ∀ st, (next st).Every Q) : (reactivateBaseProgram env schema src next).Every Q := by
  rw [reactivateBaseProgram]
  split
  · exact every_failed hQ _
  · exact hnext none
  · exact every_read hprobe fun v => every_reactivateBase hQ hnext _

variable {next : OutboxMeta → TxProgram}

theorem every_fillBaseMetaProgram {ids : OutboxMeta}
    (hnext : ∀ ids, (next ids).Every Q) :
    (fillBaseMetaProgram env schema src ids next).Every Q := by
  rw [fillBaseMetaProgram]
  split
  · exact hnext ids
  · split_ifs
    · exact hnext ids
    · exact every_execUpdateBase hQ (every_readOk hQ fun _ => hnext _)

theorem every_writeOutboxProgram {table : String} {event : EventType} {id : String}
    {payload : Payload} : (writeOutboxProgram table event id payload).Every Q :=
  every_plain hQ (fun _ => rfl) trivial

theorem every_outboxMetaProgram {id : String}
    (hnext : ∀ ids, (next ids).Every Q) : (outboxMetaProgram env schema src id next).Every Q :=
  every_readOk hQ fun _ => every_fillBaseMetaProgram hQ hnext

theorem every_writeChildrenProgram [PersistentItem α]
    {root : Option (AggregateRoot α)} {rootID : String}
    {next : Option (AggregateRoot α) → TxProgram} (hnext : ∀ root, (next root).Every Q) :
    (writeChildrenProgram env schema root rootID baseID now next).Every Q := by
  refine ⟨hQ.intro (by decide) fun v d => ?_, fun v => ?_⟩
  · rw [childrenWritten]
    split
    · rename_i h
      exact (roots_of_spine (spine_writeChildren h) :)
    · rfl
  · dsimp only
    split
    · trivial
    · exact hnext _

theorem every_updateTail [PersistentItem α] (hprobe : Q .probe fun _ d => d)
    {payload : Option (AggregateRoot α) → Database → Database → Payload} :
    (writeChildrenProgram env schema src.root src.id baseID now fun root =>
      execUpdateBase baseID p f <| .read .read (fun _ => .ok ()) fun v =>
      reactivateBaseProgram env schema src fun _ => .read .read (fun _ => .ok ()) fun v' =>
      writeOutboxProgram schema.table .updated src.id (payload root v v')).Every Q :=
  every_writeChildrenProgram hQ fun _ => every_execUpdateBase hQ <| every_readOk hQ fun _ =>
    every_reactivateBaseProgram hQ hprobe fun _ => every_readOk hQ fun _ =>
    every_writeOutboxProgram hQ

theorem every_archiveEnd [PersistentItem α] {archive : Bool} {archivedCol : String}
    (baseCascade : Option Instant) :
    (archiveEnd env schema src archive now archivedCol cascade baseCascade).Every Q :=
  every_outboxMetaProgram hQ fun _ => every_writeOutboxProgram hQ

theorem every_archiveTail [PersistentItem α] (hprobe : Q .probe fun _ d => d)
    {archive : Bool} {archivedCol : String} :
    (archiveTail env schema src archive now archivedCol cascade).Every Q := by
  rw [archiveTail, convergeBaseProgram]
  split_ifs
  · exact every_archiveBaseProgram hQ hprobe (every_archiveEnd hQ)
  · exact every_reactivateBaseProgram hQ hprobe (every_archiveEnd hQ)

theorem every_deleteEnd (basePurged : Bool) :
    (deleteEnd env schema src read basePurged).Every Q := by
  rw [deleteEnd, deleteMetaProgram]
  split_ifs
  · split <;> exact every_writeOutboxProgram hQ
  · exact every_fillBaseMetaProgram hQ fun _ => every_writeOutboxProgram hQ

theorem every_purge {vetoed : Bool} {payload : Payload} {next : Bool → TxProgram}
    (hnext : ∀ b, (next b).Every Q) (referenced : Bool) :
    (if referenced || vetoed then archiveBaseProgram env .read schema src now fun _ => next false
      else
        plain (fun d => base.children.foldl
          (fun d bc => d.deleteChildRows bc.table (·.parentID = baseID)) d) <|
        execDeleteBase baseID <| plain (·.writeOutbox base.table .deleted baseID payload) <|
        next true).Every Q := by
  split_ifs
  · exact every_archiveBaseProgram hQ (hQ.intro (by decide) fun _ _ => rfl) fun _ => hnext false
  · refine every_plain hQ (fun d => ?_) (every_execDeleteBase hQ
      (every_plain hQ (fun _ => rfl) (hnext true)))
    exact List.foldl_frame roots (fun _ _ => roots_of_spine (spine_deleteChildRows ..)) _ _

theorem every_deleteTail (hprobe : Q .probe fun _ d => d) {vetoed : Bool} :
    (deleteTail env schema src now vetoed read).Every Q := by
  rw [deleteTail, convergeAfterDeleteProgram]
  split
  · exact every_deleteEnd hQ false
  · split_ifs
    · exact every_demand hQ (every_selectRoles hQ hprobe (every_purge hQ (every_deleteEnd hQ)) _)
    · exact every_deleteEnd hQ false
    · exact every_demand hQ (every_archiveBaseProgram hQ hprobe fun _ => every_deleteEnd hQ false)

end

end Omnicore.Write
