import Omnicore.Core.TableSchema
import Omnicore.Lib.Table

/-!
# The relational store

The rows the write engine reads and writes, and its statements as functions on the store.  A
statement that a primary key refuses, or that matches no row where one is expected, is an error and
the transaction around it rolls back; every other statement is total.

Sibling tables are not kept: a sibling row is a slice of its owner's columns, and nothing here reads
one back.  `baseVersions` is a history variable: every version of a base row a statement produced.
-/

namespace Omnicore.Write

open Omnicore.Core Function Table Keyed

/-- The verbs of the outbox. -/
inductive EventType where
  | inserted
  | updated
  | archived
  | unarchived
  | deleted
  deriving DecidableEq, Repr

/-- The event of an insert or an update. -/
abbrev EventType.IsBody (ev : EventType) : Prop := ev = .inserted ∨ ev = .updated

/-- The operation of a child in a payload. -/
inductive ChildOpName where
  | insert
  | update
  | archive
  | unarchive
  | delete
  | noop
  deriving DecidableEq, Repr

/-- The structural identity of a payload: zero, empty or absent where the block leaves a key out. -/
structure OutboxMeta where
  id : String
  revision : ℕ := 0
  baseID : String := ""
  baseRevision : ℕ := 0
  basePurged : Bool := false
  createdAt : Option Instant := none
  deriving DecidableEq, Repr

/-- One child of a payload. -/
structure ChildPayload where
  op : ChildOpName
  fields : Fields
  deriving DecidableEq, Repr

/-- An outbox payload: the column-keyed scalars of the top level, the `_ids` block, and the two
blocks of children by type name. -/
structure Payload where
  scalars : Fields
  ids : OutboxMeta
  children : AssocMap String (List ChildPayload) := []
  baseChildren : AssocMap String (List ChildPayload) := []
  deriving DecidableEq, Repr

/-- One row of the outbox. -/
structure OutboxRow where
  aggregateType : String
  eventType : EventType
  aggregateID : String
  payload : Payload
  deriving DecidableEq, Repr

/-- A row of a child table. -/
structure ChildRow where
  id : String
  parentID : String
  fields : Fields
  archivedAt : Option Instant := none
  deriving DecidableEq, Repr

/-- A row of a root or role table; `parentID` is the separate link to the shared base. -/
structure RootRow where
  id : String
  parentID : String := ""
  fields : Fields
  archivedAt : Option Instant := none
  createdAt : Option Instant := none
  updatedAt : Option Instant := none
  revision : ℕ := 1
  deriving DecidableEq, Repr

open RootRow

/-- A row of the shared base. -/
structure BaseRow where
  id : String
  fields : Fields
  archivedAt : Option Instant := none
  createdAt : Option Instant := none
  updatedAt : Option Instant := none
  revision : ℕ := 1
  deriving DecidableEq, Repr

open BaseRow

instance : Keyed ChildRow := ⟨ChildRow.id⟩

instance : Keyed RootRow := ⟨id⟩

instance : Keyed BaseRow := ⟨id⟩

/-- The relational store of a service: the root and child tables by name, the base table its roles
share, the outbox, and the number of ids minted so far. -/
structure Database where
  roots : String → Table RootRow := fun _ => .empty
  children : String → Table ChildRow := fun _ => .empty
  bases : Table BaseRow := .empty
  outbox : List OutboxRow := []
  minted : ℕ := 0
  baseVersions : List BaseRow := []

/-- Why a write is refused. -/
inductive WriteError where
  /-- A plain error, with its text. -/
  | failed (text : String)
  /-- A notification on a field, the value echoed. -/
  | entityAlreadyAdded (context field : String)
  | naturalIDImmutable (context field : String)
  | concurrentModification (context field : String)
  | notFound (context field value : String)
  /-- The primary key of a table refuses a row. -/
  | duplicateKey (table id : String)
  deriving DecidableEq, Repr

/-- A root row after an `UPDATE` that binds the columns of `f`: its id stays, its revision
advances in the same statement. -/
def RootRow.written (f : RootRow → RootRow) (r : RootRow) : RootRow :=
  { f r with id := r.id, revision := r.revision + 1 }

theorem RootRow.key_written (f : RootRow → RootRow) (r : RootRow) : key (written f r) = key r := rfl

/-- A base row after an `UPDATE` that binds the columns of `f`. -/
def BaseRow.written (f : BaseRow → BaseRow) (r : BaseRow) : BaseRow :=
  { f r with id := r.id, revision := r.revision + 1 }

theorem BaseRow.key_written (f : BaseRow → BaseRow) (r : BaseRow) : key (written f r) = key r := rfl

namespace Database

/-! ### Root rows -/

/-- Replace a root table. -/
def setRoots (db : Database) (table : String) (rows : Table RootRow) : Database :=
  { db with roots := update db.roots table rows }

/-- The row of an id. -/
def root (db : Database) (table id : String) : Option RootRow := (db.roots table).find id

/-- `INSERT` of a root row. -/
def insertRoot (db : Database) (table : String) (row : RootRow) : Except WriteError Database :=
  match (db.roots table).insert row with
  | some rows => .ok (db.setRoots table rows)
  | none => .error (.duplicateKey table row.id)

/-- `UPDATE` of the root row of an id. -/
def writeRoot (db : Database) (table id : String) (f : RootRow → RootRow) : Database :=
  db.setRoots table ((db.roots table).modify (·.id = id) (written f) (key_written f))

/-- The guarded `UPDATE` of one root row, which must exist: a loaded revision must still be the
row's. -/
def updateRoot (db : Database) (table context field id : String) (rev : ℕ)
    (f : RootRow → RootRow) : Except WriteError Database :=
  match db.root table id with
  | none => .error (.notFound context field id)
  | some r =>
    if rev = 0 ∨ r.revision = rev then
      .ok (db.writeRoot table id f)
    else .error (.concurrentModification context field)

/-- `DELETE` of a root row; a missing row is no error. -/
def deleteRoot (db : Database) (table id : String) : Database :=
  db.setRoots table ((db.roots table).delete (key · = id))

/-- The revision and creation instant of a row, zero and absent for a vanished one. -/
def readRevisionCreatedAt (db : Database) (table id : String) : ℕ × Option Instant :=
  match db.root table id with
  | some r => (r.revision, r.createdAt)
  | none => (0, none)

/-! ### Child rows -/

/-- Replace a child table. -/
def setChildren (db : Database) (table : String) (rows : Table ChildRow) : Database :=
  { db with children := update db.children table rows }

/-- `INSERT` of a child row. -/
def insertChildRow (db : Database) (table : String) (row : ChildRow) : Except WriteError Database :=
  match (db.children table).insert row with
  | some rows => .ok (db.setChildren table rows)
  | none => .error (.duplicateKey table row.id)

/-- `UPDATE` of the child rows that `p` selects; ids and owners are never rewritten. -/
def updateChildRows (db : Database) (table : String) (p : ChildRow → Bool)
    (f : ChildRow → ChildRow) : Database :=
  db.setChildren table ((db.children table).modify p
    (fun r => { f r with id := r.id, parentID := r.parentID }) fun _ => rfl)

/-- `DELETE` of the child rows that `p` selects. -/
def deleteChildRows (db : Database) (table : String) (p : ChildRow → Bool) : Database :=
  db.setChildren table ((db.children table).delete p)

/-! ### The base row -/

/-- The base row of an id. -/
def base (db : Database) (baseID : String) : Option BaseRow := db.bases.find baseID

/-- `INSERT` of a base row. -/
def insertBase (db : Database) (table : String) (row : BaseRow) : Except WriteError Database :=
  match db.bases.insert row with
  | some rows => .ok { db with bases := rows, baseVersions := db.baseVersions ++ [row] }
  | none => .error (.duplicateKey table row.id)

/-- `UPDATE` of the base row of an id where `p` holds. -/
def updateBase (db : Database) (baseID : String) (p : BaseRow → Bool) (f : BaseRow → BaseRow) :
    Database :=
  { db with
    bases := db.bases.modify (fun r => r.id = baseID && p r) (written f)
      (key_written f)
    baseVersions := db.baseVersions ++ ((db.base baseID).filter p).toList.map (written f) }

/-- `DELETE` of the base row of an id. -/
def deleteBase (db : Database) (baseID : String) : Database :=
  { db with bases := db.bases.delete (key · = baseID) }

/-- The revision of the base row, zero for a vanished one. -/
def readBaseRevision (db : Database) (baseID : String) : ℕ :=
  match db.base baseID with
  | some r => r.revision
  | none => 0

/-! ### The outbox -/

/-- Append an event to the outbox. -/
def writeOutbox (db : Database) (aggregateType : String) (eventType : EventType)
    (aggregateID : String) (payload : Payload) : Database :=
  { db with outbox := db.outbox ++ [⟨aggregateType, eventType, aggregateID, payload⟩] }

/-! ### What a statement leaves alone -/

/-- Everything but the child rows and the id supply. -/
def spine (db : Database) :
    (String → Table RootRow) × Table BaseRow × List BaseRow × List OutboxRow :=
  (db.roots, db.bases, db.baseVersions, db.outbox)

@[simp] theorem spine_deleteChildRows (db : Database) (table : String) (p : ChildRow → Bool) :
    (db.deleteChildRows table p).spine = db.spine := rfl

variable {db db' : Database} {table id t : String} {f : RootRow → RootRow}

theorem spine_insertChildRow {row : ChildRow} (h : db.insertChildRow table row = .ok db') :
    db'.spine = db.spine := by
  rw [insertChildRow] at h
  split at h <;> cases h
  rfl

section

variable (h : db'.spine = db.spine)
include h

theorem roots_of_spine : db'.roots = db.roots := congrArg Prod.fst h

theorem bases_of_spine : db'.bases = db.bases := congrArg (·.2.1) h

theorem base_of_spine (baseID : String) : db'.base baseID = db.base baseID := by
  rw [base, bases_of_spine h, base]

theorem spine_updateBase_congr (baseID : String) (p : BaseRow → Bool) (f : BaseRow → BaseRow) :
    (db'.updateBase baseID p f).spine = (db.updateBase baseID p f).spine := by
  simp only [spine, Prod.mk.injEq] at h
  obtain ⟨h1, h2, h3, h4⟩ := h
  simp [spine, updateBase, base, h1, h2, h3, h4]

end

theorem base_updateBase (db : Database) (baseID : String) (p : BaseRow → Bool)
    (f : BaseRow → BaseRow) : (db.updateBase baseID p f).base baseID = (db.base baseID).map fun r =>
      if p r then written f r else r := by
  simp only [base, updateBase, find_modify]
  cases h : db.bases.find baseID with
  | none => rfl
  | some r =>
    have : r.id = baseID := (find_eq_some_iff.1 h).2
    simp [this]

/-! ### What a statement has done -/

theorem updateRoot_ok {context field : String} {rev : ℕ}
    (h : db.updateRoot table context field id rev f = .ok db') :
    ∃ r, db.root table id = some r ∧ db' = db.writeRoot table id f := by
  rw [updateRoot] at h
  split at h
  · cases h
  · rename_i r hr
    split_ifs at h
    cases h
    exact ⟨r, hr, rfl⟩

theorem mem_writeRoot {r' : RootRow} (h : r' ∈ ((db.writeRoot table id f).roots t).rows) :
    ∃ r ∈ (db.roots t).rows, r' = r ∨ r' = written f r := by
  by_cases ht : t = table
  · subst ht
    simp only [writeRoot, setRoots, update_self, Table.modify, List.mem_map] at h
    obtain ⟨r, hr, rfl⟩ := h
    refine ⟨r, hr, ?_⟩
    split_ifs
    · exact .inr rfl
    · exact .inl rfl
  · simp only [writeRoot, setRoots, update_of_ne ht] at h
    exact ⟨r', h, .inl rfl⟩

theorem root_writeRoot (db : Database) (table id : String) (f : RootRow → RootRow) :
    (db.writeRoot table id f).root table id = (db.root table id).map (written f) := by
  simp only [root, writeRoot, setRoots, update_self, find_modify]
  cases h : (db.roots table).find id with
  | none => rfl
  | some r =>
    have : r.id = id := (find_eq_some_iff.1 h).2
    simp [this]

theorem root_writeRoot_of_ne {i : String} (h : ¬(t = table ∧ i = id)) :
    (db.writeRoot t i f).root table id = db.root table id := by
  simp only [root, writeRoot, setRoots]
  by_cases ht : table = t
  · subst ht
    rw [update_self, find_modify]
    cases hr : (db.roots table).find id with
    | none => rfl
    | some r =>
      have hid : r.id = id := (find_eq_some_iff.1 hr).2
      have hne : ¬r.id = i := fun he => h ⟨rfl, he.symm.trans hid⟩
      simp [hne]
  · rw [update_of_ne ht]

theorem root_deleteRoot (i : String) :
    (db.deleteRoot t i).root table id =
      if t = table ∧ i = id then none else db.root table id := by
  simp only [root, deleteRoot, setRoots]
  by_cases ht : table = t
  · subst ht
    simp [find_delete_key]
  · rw [update_of_ne ht, if_neg fun h => ht h.1.symm]

theorem written_mem_writeRoot {r : RootRow} (hr : db.root table id = some r)
    (f : RootRow → RootRow) : written f r ∈ ((db.writeRoot table id f).roots table).rows := by
  have h := root_writeRoot db table id f
  rw [hr] at h
  exact (find_eq_some_iff.1 h).1

theorem mem_deleteRoot {r : RootRow} (h : r ∈ ((db.deleteRoot table id).roots t).rows) :
    r ∈ (db.roots t).rows := by
  by_cases ht : t = table
  · subst ht
    simp only [deleteRoot, setRoots, update_self, delete] at h
    exact (List.mem_filter.1 h).1
  · simpa only [deleteRoot, setRoots, update_of_ne ht] using h

theorem insertRoot_ok {row : RootRow} (h : db.insertRoot table row = .ok db') :
    ∃ rows, rows.rows = (db.roots table).rows ++ [row] ∧ db' = db.setRoots table rows := by
  rw [insertRoot] at h
  split at h
  · rename_i rows hrows
    cases h
    exact ⟨rows, (insert_eq_some hrows).2, rfl⟩
  · cases h

theorem insertBase_ok {row : BaseRow} (h : db.insertBase table row = .ok db') :
    ∃ rows, db.bases.insert row = some rows ∧
      db' = { db with bases := rows, baseVersions := db.baseVersions ++ [row] } := by
  rw [insertBase] at h
  split at h
  · rename_i rows hrows
    cases h
    exact ⟨rows, hrows, rfl⟩
  · cases h

end Database

end Omnicore.Write
