import Omnicore.Lib.Except
import Omnicore.Write.OutboxPayload

/-!
# The shared identity

A role references a shared base row whose id is derived from its natural key.  The base has no
writer of its own: each verb of a role upserts it, advances its revision and drives its lifecycle.
A role that becomes or stays active reactivates it, the archive of the last active role archives it
with its native children, and a hard delete purges it or archives it, as its orphan policy says.

The statements are those of one transaction; a verb strings them together in `AggregateWrite`.
-/

namespace Omnicore.Write

open Omnicore.Core Database

/-- What the write engine takes from its surroundings: the ids it mints, the hash that derives a
base id from a natural key, and the roles registered for the shared base. -/
structure Env where
  newWriteID : ℕ → String
  deterministicBaseID : String → String
  referencingRoles : List SchemaDecl

/-- The base id of an entity, derived from its natural key. -/
def Env.baseIDOf {α : Type} (env : Env) (base : BaseSchema) (src : Entity α) : String :=
  env.deterministicBaseID (sharedBaseValues base src).2

/-- Refuse a write under a condition. -/
def refuse (c : Bool) (e : WriteError) : Except WriteError Unit :=
  if c then .error e else .ok ()

/-- The base id a role row references. -/
def RootRow.link (schema : SchemaDecl) (r : RootRow) : String :=
  if schema.sharedPK then r.id else r.parentID

/-- A row is active unless its table has an archived state and the row is in it. -/
def RootRow.isActive (schema : SchemaDecl) (r : RootRow) : Bool :=
  schema.archivedAt.isNone || r.archivedAt.isNone

/-- An active row of one role references the base. -/
def findActiveRoleByFK (db : Database) (schema : SchemaDecl) (baseID : String) : Bool :=
  (db.roots schema.table).rows.any fun r => r.link schema = baseID && r.isActive schema

/-- A row of some registered role, active or archived, references the base. -/
def anyRoleRowReferences (env : Env) (db : Database) (baseID : String) : Bool :=
  env.referencingRoles.any fun rr => (db.roots rr.table).rows.any (·.link rr = baseID)

/-- An active row of some registered role references the base. -/
def anyActiveRole (env : Env) (db : Database) (baseID : String) : Bool :=
  env.referencingRoles.any (findActiveRoleByFK db · baseID)

/-- The natural key must not be empty: an empty one would collapse every identity into one. -/
def requireNaturalKey {α : Type} (base : BaseSchema) (src : Entity α) : Except WriteError Unit :=
  refuse ((sharedBaseValues base src).2 = "") <|
    .failed ("db: shared base \"" ++ base.table ++ "\" natural key (column \"" ++
      base.naturalIDColumn ++ "\") resolved empty — it must be NOT NULL / non-empty: its value " ++
      "derives the deterministic identity, and an empty key collapses every record into one")

/-- Persist the identity row and return its revision: inserted at one, or rewritten with the
revision advancing in the same statement. -/
def upsertSharedBase (db : Database) (base : BaseSchema) (baseID : String) (baseFields : Fields)
    (baseExists : Bool) (now : Instant) : Except WriteError (ℕ × Database) :=
  if baseExists then
    let db := db.updateBase baseID (fun _ => true) fun r =>
      { r with
        fields := r.fields.setAll baseFields
        updatedAt := if base.updatedAt.isSome then some now else r.updatedAt }
    .ok (db.readBaseRevision baseID, db)
  else do
    let db ← db.insertBase base.table
      { id := baseID
        fields := baseFields
        createdAt := base.createdAt.map fun _ => now
        updatedAt := base.updatedAt.map fun _ => now
        revision := 1 }
    return (1, db)

/-- Advance the revision of the identity; a vanished row is left alone. -/
def bumpBaseRevision (db : Database) (baseID : String) : Database :=
  db.updateBase baseID (fun _ => true) id

/-! ### The lifecycle of the base -/

/-- The archive direction of the cascade on one child table: stamp the children of an owner that
are still active. -/
def archiveCascade (db : Database) (child : ChildSchema) (ownerID : String) (stamp : Instant) :
    Database :=
  if child.archivedAt.isNone then db
  else db.updateChildRows child.table (fun r => r.parentID = ownerID && r.archivedAt.isNone)
    fun r => { r with archivedAt := some stamp }

/-- The unarchive direction: clear the children of an owner that carry exactly its own stamp. -/
def unarchiveCascade (db : Database) (child : ChildSchema) (ownerID : String)
    (stamp : Option Instant) : Database :=
  if child.archivedAt.isNone ∨ stamp.isNone then db
  else db.updateChildRows child.table (fun r => r.parentID = ownerID && r.archivedAt = stamp)
    fun r => { r with archivedAt := none }

/-- Archive the base row, unless it is archived already, and its active native children. -/
def archiveBaseCascade (db : Database) (base : BaseSchema) (baseID : String) (stamp : Instant) :
    Database :=
  base.children.foldl (fun db bc => archiveCascade db bc baseID stamp)
    (db.updateBase baseID (·.archivedAt.isNone) fun r => { r with archivedAt := some stamp })

/-- Restore the native children the base's archive put to sleep, then the base row. -/
def unarchiveBaseCascade (db : Database) (base : BaseSchema) (baseID : String)
    (stamp : Option Instant) : Database :=
  (base.children.foldl (fun db bc => unarchiveCascade db bc baseID stamp) db).updateBase baseID
    (·.archivedAt.isSome) fun r => { r with archivedAt := none }

variable {α : Type} (env : Env)

variable (db : Database) (schema : SchemaDecl) (base : BaseSchema) (src : Entity α)

/-- The base whose lifecycle a role's verb drives and its id, absent for a role without a base or a
base without an archived state. -/
def baseLifecycleTarget : Except WriteError (Option (BaseSchema × String)) :=
  match schema.sharedBase with
  | none => .ok none
  | some link =>
    if link.base.archivedAt.isNone then .ok none
    else do
      requireNaturalKey link.base src
      return some (link.base, env.baseIDOf link.base src)

/-- Restore an archived base once a role is active; the answer is the stamp undone. -/
def reactivateBaseIfArchived : Except WriteError (Option Instant × Database) := do
  match ← baseLifecycleTarget env schema src with
  | none => return (none, db)
  | some (base, baseID) =>
    match (db.base baseID).bind BaseRow.archivedAt with
    | none => return (none, db)
    | some stamp => return (some stamp, unarchiveBaseCascade db base baseID (some stamp))

/-- Archive the base once no active role references it; the answer is the stamp bound. -/
def archiveBaseIfNoActiveRole (now : Instant) : Except WriteError (Option Instant × Database) := do
  match ← baseLifecycleTarget env schema src with
  | none => return (none, db)
  | some (base, baseID) =>
    if anyActiveRole env db baseID then return (none, db)
    else return (some now, archiveBaseCascade db base baseID now)

variable (baseID : String)

/-- Delete the native children of the base and the base row, unless a foreign key outside the
registry vetoes it. -/
def purgeOrphanBase (vetoed : Bool) : Bool × Database :=
  if vetoed then (false, db)
  else (true, (base.children.foldl
    (fun db bc => db.deleteChildRows bc.table (·.parentID = baseID)) db).deleteBase baseID)

/-- The state of the base after a role row is gone: purged when its policy asks for it, no role row
references it and the database does not veto; archived otherwise once no active role is left. -/
def convergeBaseAfterHardDelete (now : Instant) (vetoed : Bool) :
    Except WriteError (Bool × Database) :=
  match schema.sharedBase with
  | none => .ok (false, db)
  | some link =>
    let wantsPurge := link.base.orphanPolicy = .deleteWhenUnreferenced
    if ¬wantsPurge ∧ link.base.archivedAt.isNone then .ok (false, db)
    else do
      requireNaturalKey link.base src
      let baseID := env.baseIDOf link.base src
      if wantsPurge ∧ !anyRoleRowReferences env db baseID then
        match purgeOrphanBase db link.base baseID vetoed with
        | (true, db) =>
          return (true, db.writeOutbox link.base.table .deleted baseID
            { scalars := [(link.base.idColumn, .str baseID)]
              ids := { id := baseID, basePurged := true } })
        | (false, db) => return (false, (← archiveBaseIfNoActiveRole env db schema src now).2)
      else return (false, (← archiveBaseIfNoActiveRole env db schema src now).2)

/-! ### The steps of a role's verbs -/

/-- The id of a new role row: the base's under a shared primary key, a minted one otherwise. -/
def newRoleID : String × Database :=
  if schema.sharedPK then (baseID, db)
  else (env.newWriteID db.minted, { db with minted := db.minted + 1 })

/-- A role's natural key never changes: the id derived from the request must be the one the row
references; a missing row is left to the update that follows. -/
def guardNaturalKeyImmutable (entityName id baseID : String) : Except WriteError Unit :=
  refuse
    (if schema.sharedPK then id ≠ baseID
      else (db.root schema.table id).any (·.parentID ≠ baseID))
    (.naturalIDImmutable entityName base.naturalIDField)

/-- An unarchive is refused while another active row of the role references the same base. -/
def vetoUnarchiveWithActiveSibling (id : String) : Except WriteError Unit :=
  match schema.sharedBase with
  | none => .ok ()
  | some link =>
    if schema.sharedPK ∨ schema.archivedAt.isNone then .ok ()
    else do
      requireNaturalKey link.base src
      refuse ((db.roots schema.table).rows.any fun r =>
        r.parentID = env.baseIDOf link.base src && r.id ≠ id && r.archivedAt.isNone)
        (.entityAlreadyAdded src.name idField)

/-- The base half of an event's identity: the identity clock advances on every verb that did not
write the base row itself. -/
def fillBaseMeta (ids : OutboxMeta) : OutboxMeta × Database :=
  match schema.sharedBase with
  | none => (ids, db)
  | some link =>
    if (sharedBaseValues link.base src).2 = "" then (ids, db)
    else
      let baseID := env.baseIDOf link.base src
      let db := bumpBaseRevision db baseID
      ({ ids with baseID, baseRevision := db.readBaseRevision baseID }, db)

/-- The identity of an event whose verb did not compute it inline. -/
def outboxMetaFor (id : String) : OutboxMeta × Database :=
  let (revision, createdAt) := db.readRevisionCreatedAt schema.table id
  fillBaseMeta env db schema src { id, revision, createdAt }

/-! ### What the cascades leave alone -/

theorem Database.spine_deleteChildren (children : List ChildSchema) (ownerID : String)
    (db : Database) : (children.foldl (fun db c => db.deleteChildRows c.table
      (·.parentID = ownerID)) db).spine = db.spine :=
  List.foldl_frame spine (fun _ _ => spine_deleteChildRows ..) _ _

theorem spine_archiveCascade (child : ChildSchema) (ownerID : String) (stamp : Instant) :
    (archiveCascade db child ownerID stamp).spine = db.spine := by
  rw [archiveCascade]
  split_ifs <;> rfl

theorem spine_unarchiveCascade (child : ChildSchema) (ownerID : String) (stamp : Option Instant) :
    (unarchiveCascade db child ownerID stamp).spine = db.spine := by
  rw [unarchiveCascade]
  split_ifs <;> rfl

theorem spine_archiveBaseCascade (stamp : Instant) :
    (archiveBaseCascade db base baseID stamp).spine =
      (db.updateBase baseID (·.archivedAt.isNone) fun r =>
        { r with archivedAt := some stamp }).spine :=
  List.foldl_frame spine (fun db bc => spine_archiveCascade db bc baseID stamp) _ _

theorem spine_unarchiveBaseCascade (stamp : Option Instant) :
    (unarchiveBaseCascade db base baseID stamp).spine =
      (db.updateBase baseID (·.archivedAt.isSome) fun r => { r with archivedAt := none }).spine :=
  spine_updateBase_congr
    (List.foldl_frame spine (fun db bc => spine_unarchiveCascade db bc baseID stamp) _ _)
    ..

theorem spine_newRoleID (env : Env) (db : Database) (schema : SchemaDecl) (baseID : String) :
    (newRoleID env db schema baseID).2.spine = db.spine := by
  rw [newRoleID]
  split_ifs <;> rfl

end Omnicore.Write
