import Omnicore.Write.SharedBaseWrite

/-!
# The verbs of the write engine

Insert, update, archive, unarchive and hard delete of a root or role, each one transaction: the
statements on the root row, its children and the shared base, and one outbox row.  Hooks, audit
rows and requested stamps take no part in the state a verb leaves and are not modelled.

## Main definitions

* `writeChildren` : persist every tracked child by its operation.
* `insertWrite`, `updateWrite`, `archiveWrite`, `hardDelete` : the verbs.
-/

namespace Omnicore.Write

open Omnicore.Core Domain Except Database

variable {α : Type} (env : Env)

/-! ### Children -/

/-- What the loop over the children carries: the store and the aggregate, which takes the minted
ids. -/
structure ChildWrite (α : Type) where
  db : Database
  root : AggregateRoot α

section

variable [PersistentItem α]

/-- `insertChild`: a row under a minted id, written back into the aggregate. -/
def insertChild (child : ChildSchema) (fkID : String) (w : ChildWrite α) (item : α) :
    Except WriteError (ChildWrite α) := do
  let id := env.newWriteID w.db.minted
  let db ← { w.db with minted := w.db.minted + 1 }.insertChildRow child.table
    { id, parentID := fkID, fields := writeFields child.fields (value item) }
  return { db, root := w.root.assignAggregateItemID item id }

/-- `updateChild`: rewrite the mapped columns of the item's row, which must exist. -/
def updateChild (child : ChildSchema) (w : ChildWrite α) (item : α) :
    Except WriteError (ChildWrite α) :=
  if getID item = "" then
    .error (.failed ("db: cannot update child \"" ++ child.table ++ "\" without id"))
  else if ((w.db.children child.table).find (getID item)).isSome then
    .ok { w with db := w.db.updateChildRows child.table (·.id = getID item) fun r =>
      { r with fields := r.fields.setAll (writeFields child.fields (value item)) } }
  else .error (.notFound child.table idField (getID item))

/-- `removeChild`: archive the item's row where the child has an archived state, delete it
otherwise. -/
def removeChild (child : ChildSchema) (now : Instant) (w : ChildWrite α) (item : α) :
    Except WriteError (ChildWrite α) :=
  if child.archivedAt.isSome then
    if getID item = "" then
      .error (.failed ("db: cannot archive child \"" ++ child.table ++ "\" without id"))
    else
      .ok { w with db := w.db.updateChildRows child.table (·.id = getID item) fun r =>
        { r with archivedAt := some now } }
  else if getID item = "" then
    .error (.failed ("db: cannot delete child \"" ++ child.table ++ "\" without id"))
  else .ok { w with db := w.db.deleteChildRows child.table (·.id = getID item) }

/-- Persist one tracked child. -/
def writeChild (child : ChildSchema) (fkID : String) (now : Instant) (w : ChildWrite α)
    (it : AggregateItemEntry α) : Except WriteError (ChildWrite α) :=
  match it.operation with
  | .insert => insertChild env child fkID w it.item
  | .update => updateChild child w it.item
  | .delete => removeChild child now w it.item
  | .noop => .ok w

/-- Persist the tracked children of one type. -/
def writeChildType (schema : SchemaDecl) (rootID baseID : String) (now : Instant)
    (w : ChildWrite α) (tracked : String × List (AggregateItemEntry α)) :
    Except WriteError (ChildWrite α) :=
  match schema.resolveAggregateChild tracked.1 with
  | none => .error (.failed ("db: aggregate child \"" ++ tracked.1 ++
      "\" has no TableSchema declared on \"" ++ schema.table ++ "\" (role or shared base)"))
  | some (child, fromBase) =>
    tracked.2.foldlM (writeChild env child (if fromBase then baseID else rootID) now) w

/-- Persist every tracked child by its operation: the loop runs over the children as they were when
it started, while the minted ids go into the aggregate. -/
def writeChildren (db : Database) (schema : SchemaDecl) (root : Option (AggregateRoot α))
    (rootID baseID : String) (now : Instant) :
    Except WriteError (Database × Option (AggregateRoot α)) :=
  match root with
  | none => .ok (db, none)
  | some ar => do
    let w ← ar.aggregates.foldlM (writeChildType env schema rootID baseID now) { db, root := ar }
    return (w.db, some w.root)

end

/-! ### Insert -/

variable (db : Database) (schema : SchemaDecl) (src : Entity α) (id : String) (archive : Bool)
  (now : Instant)

/-- The row an insert creates. -/
def newRootRow (parentID : String) (now : Instant) : RootRow where
  id := id
  parentID := parentID
  fields := writeFields schema.fields src.values
  createdAt := schema.createdAt.map fun _ => now
  updatedAt := schema.updatedAt.map fun _ => now
  revision := 1

section

variable [PersistentItem α]

variable (db : Database) (schema : SchemaDecl) (src : Entity α) (now : Instant)

/-- Insert of a root without a shared base. -/
def insertAggregate : Except WriteError Database := do
  let id := env.newWriteID db.minted
  let db ← { db with minted := db.minted + 1 }.insertRoot schema.table
    (newRootRow schema src id "" now)
  let (db, root) ← writeChildren env db schema src.root id "" now
  return db.writeOutbox schema.table .inserted id
    (buildWritePayload schema src root .inserted now {} (writeFields schema.fields src.values)
      { id, revision := 1, createdAt := schema.createdAt.map fun _ => now })

/-- Insert of a role: upsert the identity, refuse a second active role, then write the role row,
its children and the reactivation of the base. -/
def insertWithBase (link : SharedBaseLink) (src : Entity α) (now : Instant) :
    Except WriteError Database := do
  requireNaturalKey link.base src
  let baseID := env.baseIDOf link.base src
  let basePreExisted := (db.base baseID).isSome
  -- a blind insert would duplicate the native data of an identity it never loaded
  refuse (basePreExisted && src.actionName ≠ "GetUpsertable") <|
    .failed ("db: " ++ src.name ++ " has a SharedBase and the identity already exists — " ++
      "load it first (SharedBaseInsertCommandHandler, or repo.LoadForSharedBaseInsert in a " ++
      "manual handler) before Insert; a blind insert would duplicate the shared identity's " ++
      "native data")
  let (baseRev, db) ← upsertSharedBase db link.base baseID (sharedBaseValues link.base src).1
    basePreExisted now
  refuse (findActiveRoleByFK db schema baseID) (.entityAlreadyAdded src.name idField)
  let (id, db) := newRoleID env db schema baseID
  let db ← db.insertRoot schema.table
    (newRootRow schema src id (if schema.sharedPK then "" else baseID) now)
  let (db, root) ← writeChildren env db schema src.root id baseID now
  let (_, db) ← reactivateBaseIfArchived env db schema src
  let roleFields := writeFields schema.fields src.values ++
    if schema.sharedPK then [] else [(link.parentIDColumn, .str baseID)]
  return db.writeOutbox schema.table .inserted id
    (buildWritePayload schema src root .inserted now {} roleFields
      { id, revision := 1, createdAt := schema.createdAt.map fun _ => now, baseID
        baseRevision := baseRev })

/-- Insert. -/
def insertWrite : Except WriteError Database :=
  match schema.sharedBase with
  | none => insertAggregate env db schema src now
  | some link => insertWithBase env db schema link src now

end

/-! ### Update -/

/-- The columns an update binds. -/
def updatedRootRow (r : RootRow) : RootRow :=
  { r with
    fields := r.fields.setAll (writeFields schema.fields src.values)
    updatedAt := if schema.updatedAt.isSome then some now else r.updatedAt }

section

variable [PersistentItem α]

variable (db : Database) (schema : SchemaDecl) (src : Entity α) (now : Instant)

/-- Update of a root without a shared base. -/
def updateAggregate : Except WriteError Database := do
  let db ← db.updateRoot schema.table src.name idField src.id src.revision
    (updatedRootRow schema src now)
  let (db, root) ← writeChildren env db schema src.root src.id "" now
  let (ids, db) := outboxMetaFor env db schema src src.id
  return db.writeOutbox schema.table .updated src.id
    (buildWritePayload schema src root .updated now {} (writeFields schema.fields src.values) ids)

/-- Update of a role: the natural key is immutable, the role row is guarded by its revision, and
the identity is rewritten by the last writer. -/
def updateWithBase (link : SharedBaseLink) (src : Entity α) (now : Instant) :
    Except WriteError Database := do
  requireNaturalKey link.base src
  let baseID := env.baseIDOf link.base src
  guardNaturalKeyImmutable db schema link.base src.name src.id baseID
  let db ← db.updateRoot schema.table src.name idField src.id src.revision
    (updatedRootRow schema src now)
  let (db, root) ← writeChildren env db schema src.root src.id baseID now
  let (baseRev, db) ← upsertSharedBase db link.base baseID (sharedBaseValues link.base src).1
    true now
  let (_, db) ← reactivateBaseIfArchived env db schema src
  let (revision, createdAt) := db.readRevisionCreatedAt schema.table src.id
  return db.writeOutbox schema.table .updated src.id
    (buildWritePayload schema src root .updated now {} (writeFields schema.fields src.values)
      { id := src.id, revision, createdAt, baseID, baseRevision := baseRev })

/-- Update. -/
def updateWrite : Except WriteError Database :=
  match schema.sharedBase with
  | none => updateAggregate env db schema src now
  | some link => updateWithBase env db schema link src now

end

/-! ### Archive and unarchive -/

/-- The cascade of an archive verb over the own child tables of the tracked types. -/
def cascadeChildren (root : Option (AggregateRoot α)) (id : String) (archive : Bool)
    (cascade : Option Instant) : Database :=
  match root, cascade with
  | some ar, some stamp => ar.aggregates.foldl (fun db tracked =>
      match schema.children.find? (·.typeName = tracked.1) with
      | none => db
      | some child =>
        if archive then archiveCascade db child id stamp
        else unarchiveCascade db child id (some stamp)) db
  | _, _ => db

/-- The base step of an archive verb. -/
def convergeBaseAfterArchiveWrite : Except WriteError (Option Instant × Database) :=
  if archive then archiveBaseIfNoActiveRole env db schema src now
  else reactivateBaseIfArchived env db schema src

/-- The columns an archive verb binds: those of an update and the transition. -/
def archivedRootRow (r : RootRow) : RootRow :=
  { updatedRootRow schema src now r with archivedAt := if archive then some now else none }

/-- The instant the child cascade acts on: the operation's when archiving, the stamp the row still
carries when restoring. -/
def cascadeStamp : Option Instant :=
  if archive then some now else (db.root schema.table id).bind RootRow.archivedAt

/-- The event of an archive verb. -/
def archiveEvent : EventType := if archive then .archived else .unarchived

/-- Archive and unarchive: the transition is one more column of a guarded update, the cascade moves
the own children under the same instant, and the base follows. -/
def archiveWrite [PersistentItem α] (db : Database) (schema : SchemaDecl) (src : Entity α)
    (archive : Bool) (now : Instant) : Except WriteError Database :=
  match schema.archivedAt with
  | none => .error (.failed ("db: " ++ src.name ++ " did not declare ArchivedAt in its " ++
      "TableSchema — archive/unarchive is unavailable"))
  | some archivedCol => do
    -- probed before the row flips to active
    bif archive then .ok () else vetoUnarchiveWithActiveSibling env db schema src src.id
    let cascade := cascadeStamp db schema src.id archive now
    let db := cascadeChildren db schema src.root src.id archive cascade
    let db ← db.updateRoot schema.table src.name idField src.id src.revision
      (archivedRootRow schema src archive now)
    let (baseCascade, db) ← convergeBaseAfterArchiveWrite env db schema src archive now
    let (ids, db) := outboxMetaFor env db schema src src.id
    let fields := AssocMap.set (writeFields schema.fields src.values) archivedCol
      (if archive then .time now else .null)
    return db.writeOutbox schema.table (archiveEvent archive) src.id
      (buildWritePayload schema src src.root (archiveEvent archive) now
        { own := cascade, base := baseCascade } fields ids)

/-! ### Hard delete -/

/-- The base half of a DELETED event: a purged base leaves only its id, any other one has its clock
advanced. -/
def deleteMeta (ids : OutboxMeta) : OutboxMeta × Database :=
  if ids.basePurged then
    match schema.sharedBase with
    | none => (ids, db)
    | some link =>
      (if (sharedBaseValues link.base src).2 = "" then ids
        else { ids with baseID := env.baseIDOf link.base src }, db)
  else fillBaseMeta env db schema src ids

/-- Hard delete: the declared child tables, then the root row, then the base. -/
def hardDelete (vetoed : Bool) : Except WriteError Database := do
  let db := schema.children.foldl
    (fun db child => db.deleteChildRows child.table (·.parentID = src.id)) db
  let (revision, createdAt) := db.readRevisionCreatedAt schema.table src.id
  let db := db.deleteRoot schema.table src.id
  let (basePurged, db) ← convergeBaseAfterHardDelete env db schema src now vetoed
  let (ids, db) := deleteMeta env db schema src { id := src.id, revision, createdAt, basePurged }
  return db.writeOutbox schema.table .deleted src.id
    (buildDeletePayload schema src env.deterministicBaseID src.id ids)

/-! ### What a verb has done when it commits -/

variable {env}

theorem spine_cascadeChildren (root : Option (AggregateRoot α)) (id : String) (archive : Bool)
    (cascade : Option Instant) :
    (cascadeChildren db schema root id archive cascade).spine = db.spine := by
  unfold cascadeChildren
  split
  · refine List.foldl_frame spine (fun db tracked => ?_) _ _
    split
    · rfl
    · split_ifs
      · exact spine_archiveCascade ..
      · exact spine_unarchiveCascade ..
  · rfl

section

variable [PersistentItem α]

variable {db db' : Database} {src : Entity α} {now : Instant} {schema : SchemaDecl}

/-- The write of one child touches the tables of children, the id supply, and the minted id. -/
theorem writeChild_frame {child : ChildSchema} {fkID : String} {w w' : ChildWrite α}
    {it : AggregateItemEntry α} (h : writeChild env child fkID now w it = .ok w') :
    w'.db.spine = w.db.spine ∧ w.db.minted ≤ w'.db.minted ∧
      (w'.root = w.root ∨ ∃ item id, w'.root = w.root.assignAggregateItemID item id) := by
  rw [writeChild] at h
  split at h
  · simp only [insertChild, bind_ok, pure_ok] at h
    obtain ⟨db, hdb, rfl⟩ := h
    refine ⟨(spine_insertChildRow hdb).trans rfl, ?_, .inr ⟨_, _, rfl⟩⟩
    rw [insertChildRow] at hdb
    split at hdb <;> cases hdb
    exact Nat.le_succ _
  · rw [updateChild] at h
    split_ifs at h
    cases h
    exact ⟨rfl, le_rfl, .inl rfl⟩
  · rw [removeChild] at h
    split_ifs at h <;> cases h <;> exact ⟨rfl, le_rfl, .inl rfl⟩
  · cases h
    exact ⟨rfl, le_rfl, .inl rfl⟩

/-- What the write of every child keeps, the loop over the children of an aggregate keeps. -/
theorem writeChildren_invariant {P : Database → AggregateRoot α → Prop} {ar : AggregateRoot α}
    {root' : Option (AggregateRoot α)} {rootID baseID : String} (h0 : P db ar)
    (hP : ∀ {child fkID it tracked fromBase} {w w' : ChildWrite α}, tracked ∈ ar.aggregates →
      it ∈ tracked.2 → schema.resolveAggregateChild tracked.1 = some (child, fromBase) →
      P w.db w.root → writeChild env child fkID now w it = .ok w' → P w'.db w'.root)
    (h : writeChildren env db schema (some ar) rootID baseID now = .ok (db', root')) :
    ∃ ar', root' = some ar' ∧ P db' ar' := by
  simp only [writeChildren, bind_ok, pure_ok] at h
  obtain ⟨w, hw, h⟩ := h
  cases h
  refine ⟨w.root, rfl, foldlM_invariant (P := fun w : ChildWrite α => P w.db w.root)
    (fun w tracked htracked w' hw hstep => ?_) h0 hw⟩
  rw [writeChildType] at hstep
  split at hstep
  · cases hstep
  · exact foldlM_invariant (P := fun w : ChildWrite α => P w.db w.root)
      (fun w it hit w' hw h => hP htracked hit ‹_› hw h) hw hstep

theorem spine_writeChildren {root root' : Option (AggregateRoot α)} {rootID baseID : String}
    (h : writeChildren env db schema root rootID baseID now = .ok (db', root')) :
    db'.spine = db.spine := by
  cases root with
  | none => cases h; rfl
  | some ar =>
    obtain ⟨-, -, hspine⟩ := writeChildren_invariant (P := fun db1 _ => db1.spine = db.spine) rfl
      (fun _ _ _ hw h => (writeChild_frame h).1.trans hw) h
    exact hspine

theorem insertWithBase_ok {link : SharedBaseLink}
    (h : insertWithBase env db schema link src now = .ok db') :
    ∃ baseID baseRev db1 id db2 db3 db4 root st db5,
      baseID = env.baseIDOf link.base src ∧
      upsertSharedBase db link.base baseID (sharedBaseValues link.base src).1
        (db.base baseID).isSome now = .ok (baseRev, db1) ∧
      id = (newRoleID env db1 schema baseID).1 ∧ spine db2 = db1.spine ∧
      db2.children = db1.children ∧ db2.insertRoot schema.table
        (newRootRow schema src id (if schema.sharedPK then "" else baseID) now) = .ok db3 ∧
      writeChildren env db3 schema src.root id baseID now = .ok (db4, root) ∧
      reactivateBaseIfArchived env db4 schema src = .ok (st, db5) ∧
      db' = db5.writeOutbox schema.table .inserted id
        (buildWritePayload schema src root .inserted now {}
          (writeFields schema.fields src.values ++
            if schema.sharedPK then [] else [(link.parentIDColumn, .str baseID)])
          { id, revision := 1, createdAt := schema.createdAt.map fun _ => now, baseID
            baseRevision := baseRev }) := by
  simp only [insertWithBase, bind_ok, pure_ok, Prod.exists] at h
  obtain ⟨_, -, _, -, baseRev, db1, hup, _, -, db3, hroot, db4, root, hch, st, db5, hre, rfl⟩ := h
  refine ⟨_, baseRev, db1, _, _, db3, db4, root, st, db5, rfl, hup, rfl, spine_newRoleID .., ?_,
    hroot, hch, hre, rfl⟩
  rw [newRoleID]
  split_ifs <;> rfl

theorem updateWithBase_ok {link : SharedBaseLink}
    (h : updateWithBase env db schema link src now = .ok db') :
    ∃ baseID r db1 root baseRev db2 st db3,
      baseID = env.baseIDOf link.base src ∧
      db.root schema.table src.id = some r ∧
      writeChildren env (db.writeRoot schema.table src.id (updatedRootRow schema src now)) schema
        src.root src.id baseID now = .ok (db1, root) ∧
      upsertSharedBase db1 link.base baseID (sharedBaseValues link.base src).1 true now =
        .ok (baseRev, db2) ∧
      reactivateBaseIfArchived env db2 schema src = .ok (st, db3) ∧
      db' = db3.writeOutbox schema.table .updated src.id
        (buildWritePayload schema src root .updated now {} (writeFields schema.fields src.values)
          { id := src.id, revision := (db3.readRevisionCreatedAt schema.table src.id).1
            createdAt := (db3.readRevisionCreatedAt schema.table src.id).2, baseID
            baseRevision := baseRev }) := by
  simp only [updateWithBase, bind_ok, pure_ok, Prod.exists] at h
  obtain ⟨_, -, _, -, _, hroot, db1, root, hch, baseRev, db2, hup, st, db3, hre, rfl⟩ := h
  obtain ⟨r, hr, rfl⟩ := updateRoot_ok hroot
  exact ⟨_, r, db1, root, baseRev, db2, st, db3, rfl, hr, hch, hup, hre, rfl⟩

theorem archiveWrite_ok {archive : Bool}
    (h : archiveWrite env db schema src archive now = .ok db') :
    ∃ archivedCol cascade db1 r baseCascade db2 ids db3,
      schema.archivedAt = some archivedCol ∧
      cascade = cascadeStamp db schema src.id archive now ∧
      db1 = cascadeChildren db schema src.root src.id archive cascade ∧ db1.spine = db.spine ∧
      db.root schema.table src.id = some r ∧
      convergeBaseAfterArchiveWrite env (db1.writeRoot schema.table src.id (archivedRootRow schema
        src archive now)) schema src archive now = .ok (baseCascade, db2) ∧
      outboxMetaFor env db2 schema src src.id = (ids, db3) ∧
      db' = db3.writeOutbox schema.table (archiveEvent archive) src.id
        (buildWritePayload schema src src.root (archiveEvent archive) now
          { own := cascade, base := baseCascade }
          (AssocMap.set (writeFields schema.fields src.values) archivedCol
            (if archive then .time now else .null)) ids) := by
  rw [archiveWrite] at h
  split at h
  · cases h
  · rename_i archivedCol hcol
    simp only [bind_ok, pure_ok, Prod.exists] at h
    obtain ⟨_, -, _, hroot, baseCascade, db2, hconv, rfl⟩ := h
    obtain ⟨r, hr, rfl⟩ := updateRoot_ok hroot
    have hspine := spine_cascadeChildren db schema src.root src.id archive
      (cascadeStamp db schema src.id archive now)
    rw [root, roots_of_spine hspine] at hr
    exact ⟨archivedCol, _, _, r, baseCascade, db2, _, _, hcol, rfl, rfl, hspine, hr, hconv, rfl,
      rfl⟩

end

theorem hardDelete_ok {db db' : Database} {schema : SchemaDecl} {src : Entity α} {now : Instant}
    {vetoed : Bool} (h : hardDelete env db schema src now vetoed = .ok db') :
    ∃ (db1 : Database) (basePurged : Bool) (db2 : Database) (ids : OutboxMeta) (db3 : Database),
      db1 = schema.children.foldl
        (fun db child => db.deleteChildRows child.table (·.parentID = src.id)) db ∧
      db1.spine = db.spine ∧
      convergeBaseAfterHardDelete env (db1.deleteRoot schema.table src.id) schema src now vetoed =
        .ok (basePurged, db2) ∧
      deleteMeta env db2 schema src
        { id := src.id, revision := (db1.readRevisionCreatedAt schema.table src.id).1
          createdAt := (db1.readRevisionCreatedAt schema.table src.id).2, basePurged } =
        (ids, db3) ∧
      db' = db3.writeOutbox schema.table .deleted src.id
        (buildDeletePayload schema src env.deterministicBaseID src.id ids) := by
  simp only [hardDelete, bind_ok, pure_ok, Prod.exists] at h
  obtain ⟨basePurged, db2, hconv, rfl⟩ := h
  exact ⟨_, basePurged, db2, _, _, rfl, spine_deleteChildren .., hconv, rfl, rfl⟩

end Omnicore.Write
