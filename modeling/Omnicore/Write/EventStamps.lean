import Omnicore.Write.ChildRows
import Omnicore.Write.Unarchive

/-!
# The archive stamps an event tells

A payload names the operation of every tracked child, and for a child that was archived or restored
the value its `ArchivedAt` column has now.  What the statements of the verb have done to the rows
and what the payload says of them are computed apart: the payload goes by the status of the tracked
child and by the stamp it was loaded with.

## Main definitions

* `StampsTrue` : the archive operations of a payload are those of the rows.
* `RoleWrite.TellsTrue` : when a verb tells them truly.

## Main results

* `stampsTrue_iff_tellsTrue` : a committed write tells the stamps of its children truly exactly
  under `RoleWrite.TellsTrue`.
* `removed_child_told_at_zero` : an update that removes a child, and an update that is sealed as an
  archive.
-/

namespace Omnicore.Write

open Omnicore.Core Domain List Database Except ChildRow AggregateItemEntry RoleWrite Function

variable {α : Type}

/-! ### What an event says and what the rows say -/

/-- The tracked children of a type. -/
def tracked (root : Option (AggregateRoot α)) (typeName : String) : List (AggregateItemEntry α) :=
  (root.bind fun ar => ar.aggregates.get typeName).getD []

/-- The operations of one collection in a payload. -/
def Payload.reports (p : Payload) (c : ChildSchema) (fromBase : Bool) : List ChildPayload :=
  ((if fromBase then p.baseChildren else p.children).get c.typeName).getD []

/-- The operation moves a child into or out of the archived state. -/
def ChildOpName.movesState : ChildOpName → Bool
  | .archive | .unarchive => true
  | _ => false

/-- A collection of an aggregate, with its owner, that has an archived state. -/
def Archivable (schema : SchemaDecl) (c : ChildSchema) (fromBase : Bool) : Prop :=
  schema.resolveAggregateChild c.typeName = some (c, fromBase) ∧ c.archivedAt.isSome

/-- The archive operations of one collection are those of its rows: each is of a row, with the value
the row holds after the write, and every tracked row that holds another value than before is
named. -/
@[mk_iff]
structure CollectionTrue [PersistentItem α] (c : ChildSchema) (list : List (AggregateItemEntry α))
    (items : List ChildPayload) (db db' : Database) : Prop where
  told : ∀ item ∈ items, item.op.movesState → ∃ r ∈ (db'.children c.table).rows,
    item.fields.get c.idColumn = some (.str r.id) ∧
    ∀ col ∈ c.archivedAt, item.fields.get col = some (nullable r.archivedAt)
  complete : ∀ e ∈ list, ∀ r ∈ (db.children c.table).rows, r.id = getID e.item →
    ∀ r' ∈ (db'.children c.table).rows, r'.id = r.id → r'.archivedAt ≠ r.archivedAt →
      ∃ item ∈ items, item.op.movesState ∧ item.fields.get c.idColumn = some (.str r.id)

/-- The archive operations of a payload are those of the rows.  Collections without an archived
state are never named with one (`not_movesState_of_archivedAt`). -/
def StampsTrue [PersistentItem α] (schema : SchemaDecl) (root : Option (AggregateRoot α))
    (db db' : Database) (p : Payload) : Prop :=
  ∀ c fromBase, Archivable schema c fromBase →
    CollectionTrue c (tracked root c.typeName) (p.reports c fromBase) db db'

/-! ### When a verb tells the truth -/

/-- No tracked child with an archived state has been removed. -/
def KeepsChildren (schema : SchemaDecl) (root : Option (AggregateRoot α)) : Prop :=
  ∀ c fromBase, Archivable schema c fromBase → ∀ e ∈ tracked root c.typeName, e.operation ≠ .delete

section

variable [PersistentItem α]

variable (archive : Bool) (env : Env) (schema : SchemaDecl)

/-- The cascade of the base reaches no tracked row. -/
def SparesTracked (root : Option (AggregateRoot α)) (db : Database) (baseID : String)
    (stamp : Option Instant) : Prop :=
  ∀ c, Archivable schema c true → ∀ s ∈ stamp, ∀ e ∈ tracked root c.typeName,
    ∀ r ∈ (db.children c.table).rows, r.id = getID e.item → ¬r.Reached archive baseID s

/-- The tracked children of one collection that by the stamps of their load are reached by the
cascade of their owner, and the tracked rows that are reached, are the same. -/
def LoadedAsReached (c : ChildSchema) (list : List (AggregateItemEntry α)) (db : Database)
    (ownerID : String) (stamp : Instant) : Prop :=
  (∀ e ∈ list, cascadeTouches archive (loadedArchivedAt e.item) (some stamp) →
    getID e.item ≠ "" ∧ ∃ r ∈ (db.children c.table).rows, r.id = getID e.item ∧
      (r.Reached archive ownerID stamp ∨ r.archivedAt = if archive then some stamp else none)) ∧
  ∀ e ∈ list, ∀ r ∈ (db.children c.table).rows, r.id = getID e.item →
    r.Reached archive ownerID stamp → getID e.item ≠ "" ∧ ∃ e' ∈ list,
      getID e'.item = getID e.item ∧ cascadeTouches archive (loadedArchivedAt e'.item) (some stamp)

/-- The same for all collections of an archive verb. -/
def LoadedTrue (src : Entity α) (now : Instant) (db : Database) : Prop :=
  let stamps : CascadeStamps :=
    { own := cascadeStamp db schema src.id archive now
      base := baseStamp env (db.writeRoot schema.table src.id
        (archivedRootRow schema src archive now)) schema src archive now }
  ∀ c fromBase, Archivable schema c fromBase → ∀ s ∈ stamps.forChild fromBase,
    LoadedAsReached archive c (tracked src.root c.typeName) db
      (if fromBase then env.sharedBaseID schema src else src.id) s

/-- The stamp a hard delete archives the base under, if it does. -/
def deleteStamp (src : Entity α) (now : Instant) (vetoed : Bool) (db : Database) : Option Instant :=
  let db := db.deleteRoot schema.table src.id
  if schema.sharedBase.any (·.base.orphanPolicy = .deleteWhenUnreferenced) ∧ vetoed = false ∧
      anyRoleRowReferences env db (env.sharedBaseID schema src) = false then none
  else baseStamp env db schema src true now

/-- A write tells the archive stamps of its children truly: an insert or an update that removes no
archivable child and restores no tracked one with the base, an archive verb on children loaded as
their rows are, a delete that archives no tracked child with the base. -/
def RoleWrite.TellsTrue (db : Database) (w : RoleWrite α) : Prop :=
  match w.verb with
  | .insert | .update => KeepsChildren w.schema w.src.root ∧
      SparesTracked false w.schema w.src.root db (env.sharedBaseID w.schema w.src)
        (baseStamp env db w.schema w.src false w.now)
  | .archive => LoadedTrue true env w.schema w.src w.now db
  | .unarchive => LoadedTrue false env w.schema w.src w.now db
  | .delete vetoed =>
      SparesTracked true w.schema w.src.root db (env.sharedBaseID w.schema w.src)
        (deleteStamp env w.schema w.src w.now vetoed db)

end

/-! ### The operations of a payload -/

section

variable [PersistentItem α] {c : ChildSchema} {col : String} {cascade : Option Instant}
  {e : AggregateItemEntry α}

omit [PersistentItem α] in
theorem get_identified {idColumn : String} (hne : idColumn ≠ col) (id : String) (v : Value) :
    let m : Fields := if id = "" then [(col, v)] else AssocMap.set [(col, v)] idColumn (.str id)
    AssocMap.get m col = some v ∧
      AssocMap.get m idColumn = if id = "" then none else some (.str id) := by
  split_ifs <;> simp [AssocMap.get_set, AssocMap.get, hne, hne.symm]

variable {ev : EventType}

theorem childPayload_of_movesState (hcol : c.archivedAt = some col) (hne : c.idColumn ≠ col)
    (h : (childPayload c ev cascade e).op.movesState) :
    (childPayload c ev cascade e).fields.get col =
      some (if (childPayload c ev cascade e).op = .archive then stampValue cascade else .null) ∧
    (childPayload c ev cascade e).fields.get c.idColumn =
      if getID e.item = "" then none else some (.str (getID e.item)) := by
  cases hop : (childPayload c ev cascade e).op with
  | archive | unarchive =>
    have hfields := get_identified hne (getID e.item)
    simp only [childPayload] at hop ⊢
    rw [hop]
    simpa [hcol] using hfields _
  | insert | update | delete | noop =>
    rw [hop] at h
    cases h

theorem op_archiveEvent (archive : Bool) (hcol : c.archivedAt.isSome) (cascade : Option Instant)
    (e : AggregateItemEntry α) :
    (childPayload c (archiveEvent archive) cascade e).op =
      if cascadeTouches archive (loadedArchivedAt e.item) cascade then
        if archive then .archive else .unarchive
      else .noop := by
  cases archive <;> cases hin : cascadeTouches _ (loadedArchivedAt e.item) cascade <;>
    simp [childPayload, childOpName, archiveEvent, hcol, hin]

theorem movesState_bodyEvent (hev : ev.IsBody) (hcol : c.archivedAt.isSome) :
    (childPayload c ev cascade e).op.movesState ↔ e.operation = .delete := by
  rcases hev with rfl | rfl <;> cases hop : e.operation <;>
    simp [childPayload, childOpName, hop, hcol, ChildOpName.movesState]

theorem op_bodyEvent (hev : ev.IsBody) (hcol : c.archivedAt.isSome)
    (hop : e.operation = .delete) : (childPayload c ev cascade e).op = .archive := by
  rcases hev with rfl | rfl <;> simp [childPayload, childOpName, hop, hcol]

end

/-! ### The collections of a schema -/

/-- Rows after a cascade of an owner under a stamp, if it has run. -/
def movedBy (archive : Bool) (ownerID : String) (stamp : Option Instant) (rows : List ChildRow) :
    List ChildRow :=
  match stamp with
  | none => rows
  | some s => rows.map (moved archive ownerID s)

section

variable {schema : TableSchema} {c : ChildSchema} {fromBase : Bool}
  {root : Option (AggregateRoot α)}

theorem Archivable.mem {schema : SchemaDecl} (h : Archivable schema c fromBase) :
    c ∈ if fromBase then schema.baseChildren else schema.children :=
  (SchemaDecl.mem_of_resolveAggregateChild h.1).1

theorem Archivable.column (h : Archivable schema c fromBase) :
    ∃ col, c.archivedAt = some col ∧ c.idColumn ≠ col := by
  obtain ⟨col, hcol⟩ := Option.isSome_iff_exists.1 h.2
  have hkeys := (schema.elements_nodup c (SchemaDecl.resolveAggregateChild_some h.1).1).1
  refine ⟨col, hcol, fun he => ?_⟩
  simp only [ChildSchema.elementKeys, hcol, cons_append, nodup_cons, mem_append,
    Option.toList_some, mem_singleton] at hkeys
  exact hkeys.1 (.inr he)

theorem Archivable.table_not_mem (h : Archivable schema c false) :
    c.table ∉ archivableTables schema.baseChildren := by
  intro hbase
  obtain ⟨c', hc', -, he⟩ := mem_archivableTables.1 hbase
  exact schema.own_table_ne_base h.mem hc' he.symm

theorem Archivable.movedRows_base (h : Archivable schema c fromBase) {archive : Bool}
    {baseID : String} {stamp : Option Instant} {rows : List ChildRow} :
    movedRows archive (archivableTables schema.baseChildren) baseID stamp c.table rows =
      movedBy archive baseID (if fromBase then stamp else none) rows := by
  cases fromBase with
  | true =>
    have ht : c.table ∈ archivableTables schema.baseChildren :=
      mem_archivableTables.2 ⟨c, h.mem, h.2, rfl⟩
    cases stamp <;> simp [movedRows, movedBy, ht]
  | false => exact movedRows_of_not_mem h.table_not_mem

/-- The operations a payload names for a collection are those of its tracked children. -/
theorem reports_eq [PersistentItem α] (hc : Archivable schema c fromBase)
    (hkeys : ∀ ar ∈ root, ar.aggregates.keys.Nodup) {p : Payload} {ev : EventType}
    {stamps : CascadeStamps} (hown : p.children = childrenBlocks schema root ev stamps false)
    (hbase : p.baseChildren = childrenBlocks schema root ev stamps true) :
    p.reports c fromBase =
      (tracked root c.typeName).map (childPayload c ev (stamps.forChild fromBase)) := by
  have hblock : (if fromBase then p.baseChildren else p.children) =
      childrenBlocks schema root ev stamps fromBase := by
    cases fromBase
    · exact hown
    · exact hbase
  rw [Payload.reports, hblock]
  cases root with
  | none => rfl
  | some ar => exact get_childrenBlocks (hkeys ar rfl) hc.1

end

/-! ### Archive and unarchive -/

section

variable {archive : Bool} {ownerID : String} {stamp : Instant} {r : ChildRow}

/-- A cascade leaves a row in the state it leads to if it reaches it, or finds it there. -/
theorem archivedAt_moved_eq_iff : (r.moved archive ownerID stamp).archivedAt =
    (if archive then some stamp else none) ↔
      r.Reached archive ownerID stamp ∨ r.archivedAt = if archive then some stamp else none := by
  rw [archivedAt_moved]
  by_cases hr : r.Reached archive ownerID stamp
  · simp [hr]
  · simp [hr]

theorem archivedAt_moved_ne_iff : (r.moved archive ownerID stamp).archivedAt ≠ r.archivedAt ↔
    r.Reached archive ownerID stamp := by
  rw [archivedAt_moved]
  by_cases hr : r.Reached archive ownerID stamp
  · rw [if_pos hr, hr.2]
    cases archive <;> simp [hr]
  · simp [hr]

theorem nullable_eq_stampValue {t : Option Instant} :
    nullable t = stampValue (some stamp) ↔ t = some stamp := by
  cases t with
  | none | some t => simp [nullable, stampValue]

theorem nullable_eq_null {t : Option Instant} : nullable t = .null ↔ t = none := by
  cases t <;> simp [nullable]

theorem nullable_ne_zero (t : Option Instant) : nullable t ≠ stampValue none := by
  cases t <;> simp [nullable, stampValue]

end

section

variable [PersistentItem α] {env : Env} {schema : TableSchema} {src : Entity α} {archive : Bool}
  {now : Instant} {db db' : Database} {c : ChildSchema} {fromBase : Bool}

omit [PersistentItem α] in
theorem rows_of_archiveWrite {stamps : CascadeStamps}
    (hc : Archivable schema c fromBase) (hne : tracked src.root c.typeName ≠ [])
    (hrows : (db'.children c.table).rows = movedRows archive
      (archivableTables schema.baseChildren) (env.sharedBaseID schema src) stamps.base
      c.table (movedRows archive (cascadeTables schema src.root) src.id stamps.own
        c.table (db.children c.table).rows)) :
    (db'.children c.table).rows = movedBy archive
      (if fromBase then env.sharedBaseID schema src else src.id)
      (stamps.forChild fromBase) (db.children c.table).rows := by
  rw [hrows, hc.movedRows_base]
  cases fromBase with
  | true =>
    have ht : c.table ∈ archivableTables schema.baseChildren :=
      mem_archivableTables.2 ⟨c, hc.mem, hc.2, rfl⟩
    rw [movedRows_of_not_mem (not_mem_cascadeTables ht)]
    rfl
  | false =>
    cases hroot : src.root with
    | none =>
      rw [hroot] at hne
      exact absurd rfl hne
    | some ar =>
      have hkey : c.typeName ∈ ar.aggregates.keys := by
        by_contra hkey
        refine hne ?_
        rw [hroot, tracked, Option.bind_some, (AssocMap.get_eq_none_iff ..).2 hkey]
        rfl
      have ht : c.table ∈ cascadeTables schema (some ar) := mem_cascadeTables hc.mem hc.2 hkey
      cases hst : stamps.own <;> simp [CascadeStamps.forChild, hst, movedRows, movedBy, ht]

variable {col : String} {list : List (AggregateItemEntry α)}

section

variable (hcol : c.archivedAt = some col) (hid : c.idColumn ≠ col)
include hcol hid

/-- One child of an archive verb is told truly exactly if its row ends in the state the cascade
leads to. -/
theorem told_iff {s : Instant} {ownerID : String} {rows : List ChildRow}
    {e : AggregateItemEntry α} :
    ((childPayload c (archiveEvent archive) (some s) e).op.movesState →
      ∃ r ∈ rows.map (moved archive ownerID s),
        (childPayload c (archiveEvent archive) (some s) e).fields.get c.idColumn =
          some (.str r.id) ∧
        ∀ col ∈ c.archivedAt, (childPayload c (archiveEvent archive) (some s) e).fields.get col =
          some (nullable r.archivedAt)) ↔
    (cascadeTouches archive (loadedArchivedAt e.item) (some s) →
      getID e.item ≠ "" ∧ ∃ r ∈ rows, r.id = getID e.item ∧
        (r.Reached archive ownerID s ∨ r.archivedAt = if archive then some s else none)) := by
  have hop := op_archiveEvent (c := c) archive (by simp [hcol]) (some s) e
  by_cases hin : cascadeTouches archive (loadedArchivedAt e.item) (some s)
  · have hmoves : (childPayload c (archiveEvent archive) (some s) e).op.movesState := by
      rw [hop, if_pos hin]
      cases archive <;> rfl
    obtain ⟨hval, hkey⟩ := childPayload_of_movesState hcol hid hmoves
    rw [hop, if_pos hin] at hval
    simp only [hmoves, hin, forall_const, hkey, hcol, Option.mem_some_iff, forall_eq', hval,
      Option.some.injEq, mem_map, exists_exists_and_eq_and, id_moved]
    constructor
    · rintro ⟨r, hr, hrid, hstate⟩
      split_ifs at hrid with hempty
      refine ⟨hempty, r, hr, by simpa using hrid.symm, archivedAt_moved_eq_iff.1 ?_⟩
      cases archive
      · exact nullable_eq_null.1 hstate.symm
      · exact nullable_eq_stampValue.1 hstate.symm
    · rintro ⟨hempty, r, hr, hrid, hstate⟩
      refine ⟨r, hr, by rw [if_neg hempty, hrid], ?_⟩
      have hstate := archivedAt_moved_eq_iff.2 hstate
      cases archive
      · exact (nullable_eq_null.2 hstate).symm
      · exact (nullable_eq_stampValue.2 hstate).symm
  · have hmoves : ¬(childPayload c (archiveEvent archive) (some s) e).op.movesState := by
      rw [hop, if_neg hin]
      nofun
    exact iff_of_true (fun h => absurd h hmoves) fun h => absurd h hin

/-- The children of one collection an archive verb names are those that by their loaded stamps the
cascade reaches. -/
theorem named_iff {s : Instant} {id : String} :
    (∃ item ∈ list.map (childPayload c (archiveEvent archive) (some s)), item.op.movesState ∧
      item.fields.get c.idColumn = some (.str id)) ↔
    id ≠ "" ∧ ∃ e ∈ list, getID e.item = id ∧
      cascadeTouches archive (loadedArchivedAt e.item) (some s) := by
  have hop := op_archiveEvent (α := α) (c := c) archive (by simp [hcol]) (some s)
  simp only [mem_map, exists_exists_and_eq_and]
  constructor
  · rintro ⟨e, he, hmoves, hkey⟩
    rw [(childPayload_of_movesState hcol hid hmoves).2] at hkey
    split_ifs at hkey with hempty
    obtain rfl : getID e.item = id := by simpa using hkey
    refine ⟨hempty, e, he, rfl, ?_⟩
    by_contra hin
    rw [hop, if_neg hin] at hmoves
    cases hmoves
  · rintro ⟨hempty, e, he, rfl, hin⟩
    have hmoves : (childPayload c (archiveEvent archive) (some s) e).op.movesState := by
      rw [hop, if_pos hin]
      cases archive <;> rfl
    refine ⟨e, he, hmoves, ?_⟩
    rw [(childPayload_of_movesState hcol hid hmoves).2, if_neg hempty]

theorem collection_iff {ownerID : String} {stamp : Option Instant}
    (hrows : list ≠ [] → (db'.children c.table).rows = movedBy archive ownerID stamp (db.children
      c.table).rows) :
    CollectionTrue c list (list.map (childPayload c (archiveEvent archive) stamp)) db db' ↔
    ∀ s ∈ stamp, LoadedAsReached archive c list db ownerID s := by
  cases stamp with
  | none =>
    -- no cascade has run
    refine iff_of_true ⟨fun item hitem hmoves => ?_, fun e he r hr _ r' hr' hrr hne => ?_⟩ nofun
    · obtain ⟨e, -, rfl⟩ := mem_map.1 hitem
      rw [op_archiveEvent archive (by simp [hcol]) none e, if_neg (by simp [cascadeTouches])]
        at hmoves
      cases hmoves
    · rw [hrows (ne_nil_of_mem he)] at hr'
      exact absurd (congrArg archivedAt ((db.children c.table).key_inj hr' hr hrr)) hne
  | some s =>
    simp only [Option.mem_some_iff, forall_eq', LoadedAsReached]
    refine (iff_of_eq (by rw [collectionTrue_iff])).trans (and_congr ?_ ?_)
    · rw [forall_mem_map]
      refine forall₂_congr fun e he => ?_
      rw [hrows (ne_nil_of_mem he)]
      exact told_iff hcol hid
    · refine forall₂_congr fun e he => forall₃_congr fun r hr hrid => ?_
      rw [hrows (ne_nil_of_mem he), named_iff hcol hid, hrid]
      constructor
      · intro hnamed hreached
        exact hnamed _ (mem_map_of_mem hr) (id_moved.trans hrid)
          (archivedAt_moved_ne_iff.2 hreached)
      · intro hnamed r' hr' hrr hne
        obtain ⟨r1, hr1, rfl⟩ := mem_map.1 hr'
        obtain rfl : r1 = r := (db.children c.table).key_inj hr1 hr
          ((id_moved.symm.trans hrr).trans hrid.symm)
        exact hnamed (archivedAt_moved_ne_iff.1 hne)

end

/-- **Archive verbs.** -/
theorem stampsTrue_archiveWrite (hkeys : ∀ ar ∈ src.root, ar.aggregates.keys.Nodup)
    (h : archiveWrite env db schema src archive now = .ok db') :
    ∃ ev, db'.outbox.getLast? = some ev ∧
      (StampsTrue schema src.root db db' ev.payload ↔
        LoadedTrue archive env schema src now db) := by
  obtain ⟨own, base, hown, hbase, hrows, -, ev, hout, hblock, hblockBase⟩ := archiveWrite_moves h
  refine ⟨ev, by rw [hout, getLast?_concat], ?_⟩
  subst hown hbase
  refine forall₃_congr fun c fromBase hc => ?_
  obtain ⟨col, hcol, hid⟩ := hc.column
  rw [reports_eq hc hkeys hblock hblockBase]
  exact collection_iff hcol hid fun hne => rows_of_archiveWrite hc hne (hrows c.table)

end

/-! ### Insert and update -/

/-- The rows of a table are there, in the state they were in. -/
def Kept (db db' : Database) (table : String) : Prop :=
  ∀ r ∈ (db.children table).rows, ∃ r' ∈ (db'.children table).rows,
    r'.id = r.id ∧ r'.parentID = r.parentID ∧ r'.archivedAt = r.archivedAt

theorem Kept.of_eq {db db' : Database} {table : String}
    (h : db'.children table = db.children table) : Kept db db' table :=
  fun r hr => ⟨r, h ▸ hr, rfl, rfl, rfl⟩

theorem Kept.trans {db db1 db2 : Database} {table : String} (h : Kept db db1 table)
    (h' : Kept db1 db2 table) : Kept db db2 table := by
  intro r hr
  obtain ⟨r1, hr1, hid1, hparent1, hstate1⟩ := h r hr
  obtain ⟨r2, hr2, hid2, hparent2, hstate2⟩ := h' r1 hr1
  exact ⟨r2, hr2, hid2.trans hid1, hparent2.trans hparent1, hstate2.trans hstate1⟩

section

variable [PersistentItem α] {env : Env} {now : Instant}

theorem kept_writeChild {child : ChildSchema} {ownerID : String} {w w' : ChildWrite α}
    {it : AggregateItemEntry α} (hop : it.operation ≠ .delete)
    (h : writeChild env child ownerID now w it = .ok w') : Kept w.db w'.db child.table := by
  intro r hr
  have hbare : r.bare ∈ bareRows w'.db child.table := by
    rw [(writeChild_ok h).1]
    refine mem_append_left _ (mem_filterMap.2 ⟨r.bare, mem_map_of_mem hr, ?_⟩)
    simp [rowFate, hop]
  obtain ⟨r', hr', he⟩ := mem_map.1 hbare
  exact ⟨r', hr', (congrArg ChildRow.id he :), (congrArg ChildRow.parentID he :),
    (congrArg archivedAt he :)⟩

/-- The tracked children of `ar'` have the statuses of those of `ar`, in the same order. -/
def SameStatuses (ar ar' : AggregateRoot α) : Prop :=
  ar'.aggregates.keys.Nodup ∧ ∀ t, (ar'.entries t).map operation = (ar.entries t).map operation

variable {ar : AggregateRoot α} {vetoed : Bool} {c : ChildSchema}
  {list : List (AggregateItemEntry α)} {baseID : String}

variable {ar' : AggregateRoot α} {root' : Option (AggregateRoot α)} {stamp : Option Instant}

omit [PersistentItem α] in
theorem SameStatuses.exists_mem (h : SameStatuses ar ar') {t : String} {op : AggregateItemOp} :
    (∃ e ∈ ar'.entries t, e.operation = op) ↔ ∃ e ∈ ar.entries t, e.operation = op := by
  rw [← mem_map, h.2 t, mem_map]

theorem operations_assignInList (item stamped : α) :
    (assignInList item stamped list).map operation = list.map operation := by
  induction list with
  | nil => rfl
  | cons e list ih =>
    rw [assignInList]
    split_ifs
    · rfl
    · rw [map_cons, ih, map_cons]

theorem SameStatuses.assignAggregateItemID (h : SameStatuses ar ar') (item : α) (id : String) :
    SameStatuses ar (ar'.assignAggregateItemID item id) := by
  rw [AggregateRoot.assignAggregateItemID]
  split
  · exact h
  · refine ⟨AssocMap.keys_set_nodup h.1, fun t => ?_⟩
    rw [AggregateRoot.entries_setEntries]
    split_ifs with hkey
    · rw [operations_assignInList, hkey]
      exact h.2 _
    · exact h.2 t

theorem writeChildren_keeps {schema : TableSchema} {db db' : Database} {rootID : String}
    (hkeys : ar.aggregates.keys.Nodup)
    (h : writeChildren env db schema (some ar) rootID baseID now = .ok (db', root')) :
    (∀ c ∈ schema.allChildren, (∀ e ∈ ar.entries c.typeName, e.operation ≠ .delete) →
      Kept db db' c.table) ∧
    ∃ ar', root' = some ar' ∧ SameStatuses ar ar' := by
  constructor
  · intro c hc hops
    obtain ⟨fromBase, hres⟩ := schema.resolveAggregateChild_of_mem hc
    obtain ⟨w, w', hw, hfold, hw'⟩ := writeChildren_table hkeys hres h
    refine (Kept.of_eq hw).trans (Kept.trans ?_ (.of_eq hw'))
    exact foldlM_invariant (P := fun w' : ChildWrite α => Kept w.db w'.db c.table)
      (fun w1 it hit w2 hkept hstep => hkept.trans (kept_writeChild (hops it hit) hstep))
      (.of_eq rfl) hfold
  · refine writeChildren_invariant (P := fun _ ar' => SameStatuses ar ar') ⟨hkeys, fun _ => rfl⟩
      (fun _ _ _ hw h => ?_) h
    obtain he | ⟨item, id, he⟩ := (writeChild_frame h).2.2 <;> rw [he]
    exacts [hw, hw.assignAggregateItemID _ _]

variable {schema : SchemaDecl} {src : Entity α} {db db' : Database}

/-- What an insert and an update leave of the children: they are written, those the stamp of the
base reaches are restored, and the event names their statuses without a stamp. -/
def ChildrenWritten (env : Env) (schema : SchemaDecl) (src : Entity α) (now : Instant)
    (ev : EventType) (db db' : Database) (p : Payload) : Prop :=
  ∃ db₁ db₂ root rootID,
    writeChildren env db₁ schema src.root rootID (env.sharedBaseID schema src) now =
      .ok (db₂, root) ∧
    db₁.children = db.children ∧
    (∀ t, (db'.children t).rows = movedRows false (archivableTables schema.baseChildren)
      (env.sharedBaseID schema src) (baseStamp env db schema src false now) t
      (db₂.children t).rows) ∧
    p.children = childrenBlocks schema root ev {} false ∧
    p.baseChildren = childrenBlocks schema root ev {} true

omit [PersistentItem α]

theorem baseStamp_restore_congr
    (h : (db'.baseArchivedAt (env.sharedBaseID schema src)).join =
      (db.baseArchivedAt (env.sharedBaseID schema src)).join) :
    baseStamp env db' schema src false now = baseStamp env db schema src false now := by
  rw [join_baseArchivedAt, join_baseArchivedAt] at h
  simp only [baseStamp, Bool.false_eq_true, if_false, h]

theorem baseStamp_of_sharedBase_none (hbase : schema.sharedBase = none) (archive : Bool) :
    baseStamp env db schema src archive now = none := by
  rw [baseStamp, hbase]
  rfl

theorem sharedBaseID_of_none (hbase : schema.sharedBase = none) :
    env.sharedBaseID schema src = "" := by
  rw [Env.sharedBaseID, hbase]
  rfl

variable [PersistentItem α]

theorem childrenWritten_insertWrite (h : insertWrite env db schema src now = .ok db') :
    ∃ ev, db'.outbox.getLast? = some ev ∧
      ChildrenWritten env schema src now .inserted db db' ev.payload := by
  cases hbase : schema.sharedBase with
  | none =>
    simp only [insertWrite, hbase, insertAggregate, bind_ok, pure_ok, Prod.exists] at h
    obtain ⟨db1, hroot, db2, root, hch, rfl⟩ := h
    obtain ⟨rows, -, rfl⟩ := insertRoot_ok hroot
    rw [← sharedBaseID_of_none hbase] at hch
    refine ⟨_, getLast?_concat, _, db2, root, _, hch, rfl, fun t => ?_, rfl, rfl⟩
    rw [baseStamp_of_sharedBase_none hbase]
    rfl
  | some link =>
    simp only [insertWrite, hbase] at h
    obtain ⟨baseID, baseRev, db1, id, db2, db3, db4, root, st, db5, hid, hup, -, hspine2,
      hchildren2, hroot, hch, hre, rfl⟩ := insertWithBase_ok h
    have hid : env.sharedBaseID schema src = baseID := by
      rw [sharedBaseID_eq hbase, hid]
    have hconv : convergeBaseAfterArchiveWrite env db4 schema src false now = .ok (st, db5) := hre
    obtain ⟨rows, -, rfl⟩ := insertRoot_ok hroot
    have hst : st = baseStamp env db schema src false now := by
      refine (convergeBase_cases hconv).1.trans (baseStamp_restore_congr ?_)
      have h4 : db4.baseArchivedAt baseID = db1.baseArchivedAt baseID :=
        (baseArchivedAt_of_spine (spine_writeChildren hch) baseID).trans
          (baseArchivedAt_of_spine hspine2 baseID)
      rw [hid, h4, join_baseArchivedAt_upsert hup]
    rw [← hid] at hch
    refine ⟨_, getLast?_concat, _, db4, root, _, hch, ?_, fun t => ?_, rfl, rfl⟩
    · exact hchildren2.trans (upsertSharedBase_ok hup).2.1
    · rw [← hst]
      exact convergeBase_moves hconv t

theorem childrenWritten_updateWrite (h : updateWrite env db schema src now = .ok db') :
    ∃ ev, db'.outbox.getLast? = some ev ∧
      ChildrenWritten env schema src now .updated db db' ev.payload := by
  cases hbase : schema.sharedBase with
  | none =>
    simp only [updateWrite, hbase, updateAggregate, bind_ok, pure_ok, Prod.exists] at h
    obtain ⟨db1, hroot, db2, root, hch, rfl⟩ := h
    obtain ⟨-, -, rfl⟩ := updateRoot_ok hroot
    rw [← sharedBaseID_of_none hbase] at hch
    refine ⟨_, getLast?_concat, _, db2, root, _, hch, rfl, fun t => ?_, rfl, rfl⟩
    rw [baseStamp_of_sharedBase_none hbase]
    exact congrArg (fun f : String → Table ChildRow => (f t).rows)
      (fillBaseMeta_advances ..).frame.2.1
  | some link =>
    simp only [updateWrite, hbase] at h
    obtain ⟨baseID, _, db1, root, baseRev, db2, st, db3, hid, -, hch, hup, hre, rfl⟩ :=
      updateWithBase_ok h
    have hid : env.sharedBaseID schema src = baseID := by
      rw [sharedBaseID_eq hbase, hid]
    have hconv : convergeBaseAfterArchiveWrite env db2 schema src false now = .ok (st, db3) := hre
    have hst : st = baseStamp env db schema src false now := by
      refine (convergeBase_cases hconv).1.trans (baseStamp_restore_congr ?_)
      rw [hid, (upsertSharedBase_ok hup).2.2.2]
      exact congrArg Option.join (baseArchivedAt_of_spine (spine_writeChildren hch) baseID)
    rw [← hid] at hch
    refine ⟨_, getLast?_concat, _, db1, root, _, hch, rfl, fun t => ?_, rfl, rfl⟩
    rw [← hst, ← (upsertSharedBase_ok hup).2.1]
    exact convergeBase_moves hconv t

/-- The rows and the root that `writeChildren` returns: a collection none of whose children is
removed keeps its rows, and the statuses stay. -/
theorem writeChildren_tracked {schema : TableSchema} {root : Option (AggregateRoot α)}
    {rootID : String} (hkeys : ∀ ar ∈ root, ar.aggregates.keys.Nodup)
    (h : writeChildren env db schema root rootID baseID now = .ok (db', root')) :
    (∀ c ∈ schema.allChildren, (∀ e ∈ tracked root c.typeName, e.operation ≠ .delete) →
      Kept db db' c.table) ∧
    (∀ ar ∈ root', ar.aggregates.keys.Nodup) ∧
    ∀ t op, (∃ e ∈ tracked root' t, e.operation = op) ↔ ∃ e ∈ tracked root t, e.operation = op := by
  cases root with
  | none =>
    cases h
    exact ⟨fun _ _ _ => .of_eq rfl, nofun, fun _ _ => .rfl⟩
  | some ar =>
    obtain ⟨hkept, ar', rfl, hsame⟩ := writeChildren_keeps (hkeys ar rfl) h
    refine ⟨hkept, fun _ he => ?_, fun t op => hsame.exists_mem⟩
    cases he
    exact hsame.1

/-- The archive operations of an insert or an update are true only if there is none: the stamp they
carry is the zero time. -/
theorem told_bodyEvent_iff {col : String} (hcol : c.archivedAt = some col) (hid : c.idColumn ≠ col)
    {ev : EventType} (hev : ev.IsBody) {rows : List ChildRow} :
    (∀ item ∈ list.map (childPayload c ev none), item.op.movesState → ∃ r ∈ rows,
      item.fields.get c.idColumn = some (.str r.id) ∧
      ∀ col ∈ c.archivedAt, item.fields.get col = some (nullable r.archivedAt)) ↔
    ¬∃ e ∈ list, e.operation = .delete := by
  have hsome : c.archivedAt.isSome := by simp [hcol]
  rw [forall_mem_map]
  constructor
  · rintro htold ⟨e, he, hop⟩
    have hmoves : (childPayload c ev none e).op.movesState := (movesState_bodyEvent hev hsome).2 hop
    obtain ⟨r, -, -, hval⟩ := htold e he hmoves
    have hzero := (childPayload_of_movesState hcol hid hmoves).1
    rw [op_bodyEvent hev hsome hop, if_pos rfl, hval col hcol] at hzero
    exact nullable_ne_zero _ (Option.some.inj hzero)
  · intro hnone e he hmoves
    exact absurd ⟨e, he, (movesState_bodyEvent hev hsome).1 hmoves⟩ hnone

/-- An event without archive operations is complete exactly if the base's stamp reaches no tracked
row. -/
theorem complete_iff {db2 : Database} {archive : Bool} (hkept : Kept db db2 c.table)
    (hrows : (db'.children c.table).rows = movedBy archive baseID stamp (db2.children c.table).rows)
    :
    (∀ e ∈ list, ∀ r ∈ (db.children c.table).rows, r.id = getID e.item →
      ∀ r' ∈ (db'.children c.table).rows, r'.id = r.id → r'.archivedAt = r.archivedAt) ↔
    ∀ s ∈ stamp, ∀ e ∈ list, ∀ r ∈ (db.children c.table).rows, r.id = getID e.item →
      ¬r.Reached archive baseID s := by
  have huniq : ∀ r ∈ (db.children c.table).rows, ∀ r2 ∈ (db2.children c.table).rows,
      r2.id = r.id → r2.parentID = r.parentID ∧ r2.archivedAt = r.archivedAt := by
    intro r hr r2 hr2 hid
    obtain ⟨r1, hr1, hid1, hstate⟩ := hkept r hr
    obtain rfl := (db2.children c.table).key_inj hr1 hr2 (hid1.trans hid.symm)
    exact hstate
  cases stamp with
  | none =>
    refine iff_of_true (fun e he r hr hrid r' hr' hid => ?_) (by simp)
    rw [hrows] at hr'
    exact (huniq r hr r' hr' hid).2
  | some s =>
    simp only [Option.mem_some_iff, forall_eq', hrows, movedBy, forall_mem_map, id_moved]
    refine forall₂_congr fun e he => forall₃_congr fun r hr hrid => ?_
    constructor
    · intro hsame hreached
      obtain ⟨r2, hr2, hid, hparent, hstate⟩ := hkept r hr
      have hreached2 : r2.Reached archive baseID s :=
        ⟨hparent.trans hreached.1, hstate.trans hreached.2⟩
      exact archivedAt_moved_ne_iff.2 hreached2 ((hsame r2 hr2 hid).trans hstate.symm)
    · intro hnot r2 hr2 hid
      obtain ⟨hparent, hstate⟩ := huniq r hr r2 hr2 hid
      by_contra hne
      rw [← hstate] at hne
      obtain ⟨hp, hs⟩ := archivedAt_moved_ne_iff.1 hne
      exact hnot ⟨hparent.symm.trans hp, hstate.symm.trans hs⟩

/-- **Inserts and updates.** -/
theorem stampsTrue_childrenWritten {schema : TableSchema} {ev : EventType} {p : Payload}
    (hkeys : ∀ ar ∈ src.root, ar.aggregates.keys.Nodup) (hev : ev.IsBody)
    (h : ChildrenWritten env schema src now ev db db' p) :
    StampsTrue schema src.root db db' p ↔
      KeepsChildren schema src.root ∧
      SparesTracked false schema src.root db (env.sharedBaseID schema src)
        (baseStamp env db schema src false now) := by
  obtain ⟨db1, db2, root', rootID, hch, hdb1, hrows, hown, hbase⟩ := h
  obtain ⟨hkept, hkeys', hops⟩ := writeChildren_tracked hkeys hch
  have hcoll : ∀ c fromBase, Archivable schema c fromBase →
      (CollectionTrue c (tracked src.root c.typeName) (p.reports c fromBase) db db' ↔
        (¬∃ e ∈ tracked src.root c.typeName, e.operation = .delete) ∧
        ∀ s ∈ if fromBase then baseStamp env db schema src false now else none,
          ∀ e ∈ tracked src.root c.typeName, ∀ r ∈ (db.children c.table).rows, r.id = getID e.item →
              ¬r.Reached false (env.sharedBaseID schema src) s) := by
    intro c fromBase hc
    obtain ⟨col, hcol, hid⟩ := hc.column
    have hstamp : ({} : CascadeStamps).forChild fromBase = none := by cases fromBase <;> rfl
    rw [reports_eq hc hkeys' hown hbase, hstamp, collectionTrue_iff,
      told_bodyEvent_iff hcol hid hev, hops]
    refine and_congr_right fun hnone => ?_
    have hkept' : Kept db db2 c.table :=
      (Kept.of_eq (congrFun hdb1 _)).trans (hkept c (SchemaDecl.resolveAggregateChild_some hc.1).1
        fun e he hop => hnone ⟨e, he, hop⟩)
    rw [← complete_iff hkept' ((hrows c.table).trans hc.movedRows_base)]
    -- nothing is named, so nothing may have changed
    refine forall₂_congr fun e he => forall₃_congr fun r hr hrid => ?_
    refine forall₃_congr fun r' hr' hid => ?_
    refine (imp_congr_right fun _ => iff_of_false ?_ not_false).trans not_not
    rintro ⟨item, hitem, hmoves, -⟩
    obtain ⟨e, he, rfl⟩ := mem_map.1 hitem
    exact hnone ((hops _ _).1 ⟨e, he, (movesState_bodyEvent hev hc.2).1 hmoves⟩)
  constructor
  · intro htrue
    refine ⟨fun c fromBase hc e he hop => ?_, fun c hc => ?_⟩
    · exact ((hcoll c fromBase hc).1 (htrue c fromBase hc)).1 ⟨e, he, hop⟩
    · exact ((hcoll c true hc).1 (htrue c true hc)).2
  · rintro ⟨hkeep, hspare⟩ c fromBase hc
    refine (hcoll c fromBase hc).2 ⟨fun ⟨e, he, hop⟩ => hkeep c fromBase hc e he hop, ?_⟩
    cases fromBase
    · simp
    · exact hspare c hc

/-! ### Delete -/

/-- A loop of deletes over child tables only takes rows away, and only from those tables. -/
theorem rows_deleteChildren (ownerID table : String) (children : List ChildSchema) (db : Database) :
    (∀ r ∈ ((children.foldl (fun db child => db.deleteChildRows child.table (·.parentID = ownerID))
      db).children table).rows, r ∈ (db.children table).rows) ∧
    (table ∉ children.map (·.table) → ((children.foldl
      (fun db child => db.deleteChildRows child.table (·.parentID = ownerID)) db).children table) =
        db.children table) := by
  induction children generalizing db with
  | nil => exact ⟨fun _ hr => hr, fun _ => rfl⟩
  | cons child children ih =>
    rw [foldl_cons]
    obtain ⟨hsub, heq⟩ := ih (db.deleteChildRows child.table (·.parentID = ownerID))
    constructor
    · intro r hr
      have hr := hsub r hr
      by_cases ht : table = child.table
      · subst ht
        simp only [deleteChildRows, setChildren, update_self, Table.delete] at hr
        exact mem_of_mem_filter hr
      · simpa only [deleteChildRows, setChildren, update_of_ne ht] using hr
    · intro ht
      rw [map_cons, mem_cons, not_or] at ht
      rw [heq ht.2, deleteChildRows, setChildren]
      exact update_of_ne ht.1 _ _

omit [PersistentItem α] in
/-- The rows of a collection after a delete: what is left of them, or, where the base is archived,
those rows under its stamp. -/
theorem hardDelete_rows {schema : TableSchema}
    (h : hardDelete env db schema src now vetoed = .ok db') {fromBase : Bool}
    (hc : Archivable schema c fromBase)
    (hstamp : stamp = if fromBase then deleteStamp env schema src now vetoed db else none) :
    (stamp = none ∧ ∀ r ∈ (db'.children c.table).rows, r ∈ (db.children c.table).rows) ∨
    (db'.children c.table).rows = movedBy true (env.sharedBaseID schema src) stamp
      (db.children c.table).rows := by
  obtain ⟨db1, basePurged, db2, ids, db3, hdb1, hspine, hconv, hids, rfl⟩ := hardDelete_ok h
  simp only [writeOutbox, (deleteMeta_advances hids).frame.2.1]
  obtain ⟨hsub, heq⟩ := rows_deleteChildren src.id c.table schema.children db
  rw [← hdb1] at hsub heq
  have hroots : (db1.deleteRoot schema.table src.id).roots =
      (db.deleteRoot schema.table src.id).roots := by
    simp only [deleteRoot, setRoots, roots_of_spine hspine]
  have hbases : (db1.deleteRoot schema.table src.id).bases =
      (db.deleteRoot schema.table src.id).bases := (bases_of_spine hspine :)
  rcases convergeBaseAfterHardDelete_cases hconv with
    ⟨-, hp, link, -, rfl⟩ | ⟨-, hp, st, hconv⟩
  · refine .inl ⟨?_, fun r hr => hsub r ((rows_deleteChildren (env.sharedBaseID schema src)
      c.table link.base.children (db1.deleteRoot schema.table src.id)).1 r hr)⟩
    rw [PurgesBase, anyRoleRowReferences_congr hroots] at hp
    rw [hstamp, deleteStamp, if_pos hp, ite_self]
  · rw [PurgesBase, anyRoleRowReferences_congr hroots] at hp
    rw [deleteStamp, if_neg hp, ← baseStamp_congr hroots hbases,
      ← (convergeBase_cases hconv).1] at hstamp
    have hrows := (convergeBase_moves hconv c.table).trans hc.movedRows_base
    rw [← hstamp] at hrows
    cases fromBase with
    | false =>
      refine .inl ⟨by simpa using hstamp, fun r hr => hsub r ?_⟩
      rw [hrows, hstamp] at hr
      exact hr
    | true =>
      -- the tables of the base's children are none of the role's
      have hown : c.table ∉ schema.children.map (·.table) := by
        intro ht
        obtain ⟨c', hc', he⟩ := mem_map.1 ht
        exact schema.own_table_ne_base hc' hc.mem he
      refine .inr (hrows.trans ?_)
      exact congrArg (fun t => movedBy true _ stamp (Table.rows t)) (heq hown)

/-- **Deletes.** -/
theorem stampsTrue_hardDelete {schema : TableSchema}
    (h : hardDelete env db schema src now vetoed = .ok db') :
    ∃ ev, db'.outbox.getLast? = some ev ∧
      (StampsTrue schema src.root db db' ev.payload ↔
        SparesTracked true schema src.root db
          (env.sharedBaseID schema src) (deleteStamp env schema src now vetoed db)) := by
  have hcoll : ∀ c fromBase, Archivable schema c fromBase →
      (CollectionTrue c (tracked src.root c.typeName) [] db db' ↔
        ∀ s ∈ if fromBase then deleteStamp env schema src now vetoed db else none,
          ∀ e ∈ tracked src.root c.typeName, ∀ r ∈ (db.children c.table).rows, r.id = getID e.item →
              ¬r.Reached true (env.sharedBaseID schema src) s) := by
    intro c fromBase hc
    rw [collectionTrue_iff]
    simp only [not_mem_nil, false_implies, implies_true, true_and, false_and, exists_false,
      imp_false, not_not, ne_eq]
    rcases hardDelete_rows h hc rfl with ⟨hnone, hsub⟩ | hrows
    · rw [hnone]
      refine iff_of_true (fun e he r hr hrid r' hr' hid => ?_) (by simp)
      exact congrArg archivedAt ((db.children c.table).key_inj (hsub r' hr') hr hid)
    · exact complete_iff (.of_eq rfl) hrows
  have hevent : ∃ ev, db'.outbox.getLast? = some ev ∧ ev.payload.children = [] ∧
      ev.payload.baseChildren = [] := by
    obtain ⟨_, _, _, _, _, -, -, -, -, rfl⟩ := hardDelete_ok h
    exact ⟨_, getLast?_concat, rfl, rfl⟩
  obtain ⟨ev, hlast, hown, hbase⟩ := hevent
  refine ⟨ev, hlast, ?_⟩
  have hreports : ∀ c fromBase, ev.payload.reports c fromBase = [] := by
    intro c fromBase
    rw [Payload.reports, hown, hbase, ite_self]
    rfl
  constructor
  · intro htrue c hc
    have hc' := htrue c true hc
    rw [hreports] at hc'
    exact (hcoll c true hc).1 hc'
  · intro hspare c fromBase hc
    rw [hreports, hcoll c fromBase hc]
    cases fromBase
    · simp
    · exact hspare c hc

end

/-! ### Every verb -/

/-- **The archive stamps of an event.**  The archive operations of the event of a committed write
are those of the rows exactly if the write tells them truly. -/
theorem stampsTrue_iff_tellsTrue [PersistentItem α] {env : Env} {schema : TableSchema}
    {w : RoleWrite α} (hschema : w.schema = schema.toSchemaDecl)
    (hkeys : ∀ ar ∈ w.src.root, ar.aggregates.keys.Nodup) {db db' : Database}
    (h : w.commit env db = .ok db') :
    ∃ ev, db'.outbox.getLast? = some ev ∧
      (StampsTrue w.schema w.src.root db db' ev.payload ↔ w.TellsTrue env db) := by
  obtain ⟨_, verb, src, now⟩ := w
  cases hschema
  cases verb with
  | insert =>
    obtain ⟨ev, hlast, hwritten⟩ := childrenWritten_insertWrite h
    exact ⟨ev, hlast, stampsTrue_childrenWritten hkeys (.inl rfl) hwritten⟩
  | update =>
    obtain ⟨ev, hlast, hwritten⟩ := childrenWritten_updateWrite h
    exact ⟨ev, hlast, stampsTrue_childrenWritten hkeys (.inr rfl) hwritten⟩
  | archive | unarchive => exact stampsTrue_archiveWrite hkeys h
  | delete vetoed => exact stampsTrue_hardDelete h

/-- The student with one address left, loaded and edited. -/
def lodgerEdited (edit : AggregateRoot Address → AggregateRoot Address) : Entity Address :=
  { roleOf7 "s0" 0 "Ann" with
    root := some (edit (constructed ["Address"] [some { id := "a1", street := "Elm" }])) }

/-- The archive of the student as it was loaded tells the address that follows. -/
theorem lodger_archive_told :
    ∃ db' ev, commit personEnv (lodging none)
        ⟨lodger.toSchemaDecl, .archive, lodgerEdited id, 5⟩ = .ok db' ∧
      db'.outbox.getLast? = some ev ∧
      StampsTrue lodger.toSchemaDecl (lodgerEdited id).root (lodging none) db' ev.payload := by
  obtain ⟨db', hdb, -⟩ := exists_ok (x := commit personEnv (lodging none)
    ⟨lodger, .archive, lodgerEdited id, 5⟩) (fun _ => True) (by decide +kernel) fun _ _ => id
  obtain ⟨ev, hlast, htrue⟩ := stampsTrue_iff_tellsTrue rfl (fun ar har => by cases har; decide) hdb
  refine ⟨db', ev, hdb, hlast, htrue.2 fun c fromBase hc s hs => ?_⟩
  cases fromBase with
  | true => cases hc.mem
  | false =>
    obtain rfl := mem_singleton.1 hc.mem
    cases hs
    unfold LoadedAsReached
    decide

/-- The student without its address. -/
def lodgerLeaving : Entity Address :=
  lodgerEdited (·.removeAggregateChild (some { id := "a1", street := "Elm" }))

/-- The operations the last event names for the addresses of a student, with the id and the archive
stamp of each. -/
def toldAddresses (db : Database) : List (ChildOpName × Option Value × Option Value) :=
  db.outbox.getLast?.toList.flatMap fun ev => lodger.children.flatMap fun c =>
    (ev.payload.reports c false).map fun item =>
      (item.op, item.fields.get "id", item.fields.get "archived_at")

/-- The states of the address rows. -/
def heldAddresses (db : Database) : List (String × Option Instant) :=
  (db.children "address").rows.map fun r => (r.id, r.archivedAt)

/-- **A removed address is told at the zero time**, and a new address of an update that is sealed as
an archive is told as archived without an id, and is not stored. -/
theorem removed_child_told_at_zero :
    (∃ db' ev, commit personEnv (lodging none)
        ⟨lodger.toSchemaDecl, .update, lodgerLeaving, 5⟩ = .ok db' ∧
      toldAddresses db' = [(.archive, some (.str "a1"), some (.time 0))] ∧
      heldAddresses db' = [("a1", some 5), ("a2", some 1)] ∧
      db'.outbox.getLast? = some ev ∧
      ¬StampsTrue lodger.toSchemaDecl lodgerLeaving.root (lodging none) db' ev.payload) ∧
    (commit personEnv (lodging none) ⟨lodger.toSchemaDecl, .archive,
      lodgerEdited (·.addAggregateChild (some { street := "Ash" })), 5⟩).toOption.any fun db' =>
        toldAddresses db' = [(.archive, some (.str "a1"), some (.time 5)),
          (.archive, none, some (.time 5))] ∧
        heldAddresses db' = [("a1", some 5), ("a2", some 1)] := by
  refine ⟨?_, by decide +kernel⟩
  obtain ⟨db', hdb, htold, hheld⟩ := exists_ok
    (x := updateWrite personEnv (lodging none) lodger lodgerLeaving 5)
    (fun db' => toldAddresses db' = [(.archive, some (.str "a1"), some (.time 0))] ∧
      heldAddresses db' = [("a1", some 5), ("a2", some 1)]) (by decide +kernel) fun _ _ => id
  obtain ⟨ev, hlast, hwritten⟩ := childrenWritten_updateWrite hdb
  refine ⟨db', ev, hdb, htold, hheld, hlast, ?_⟩
  rw [stampsTrue_childrenWritten (fun ar har => by cases har; decide) (.inr rfl) hwritten]
  rintro ⟨hkeeps, -⟩
  exact hkeeps (lodger.children.head (by decide)) false ⟨rfl, rfl⟩ _ mem_cons_self rfl

end Omnicore.Write
