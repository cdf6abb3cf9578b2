import Omnicore.Domain.AggregateRoot
import Omnicore.Write.Database

/-!
# The outbox payload

One event carries the state of its write: the scalars of the root, its siblings and the shared base
column-keyed at the top level, the structural identity, and every tracked child with the operation
the write performed on it.  Redaction runs on the copy that leaves, never on the values a statement
binds.

## Main definitions

* `childOpName`, `cascadeTouches` : the operation a payload names for a child.
* `buildWritePayload`, `buildDeletePayload` : the payloads of the verbs.
-/

namespace Omnicore.Write

open Omnicore.Core Domain List AssocMap SchemaDecl

/-- What the write engine and the loader ask of a child type besides its identity. -/
class PersistentItem (α : Type) extends AggregateValueObject α where
  /-- The value behind a mapped column. -/
  value : α → String → Value
  /-- The unredacted columns that hold the JSON text null: a value and not nil, though it reads as
  null. -/
  jsonNull : α → String → Bool := fun _ _ => false
  /-- The archive stamp the item carries from its load. -/
  loadedArchivedAt : α → Option Instant
  /-- The item scanned from a row of a child table. -/
  scan : ChildSchema → ChildRow → α

export PersistentItem (value jsonNull loadedArchivedAt scan)

/-- An entity handed to the write engine: the values behind its mapped columns, those that are a
JSON text null, the revision it was loaded at (zero for one that was not), the action that produced
it, and its aggregate root (absent for a flat entity). -/
structure Entity (α : Type) where
  name : String := ""
  id : String := ""
  values : String → Value
  jsonNull : String → Bool := fun _ => false
  revision : ℕ := 0
  actionName : String := ""
  root : Option (AggregateRoot α) := none

/-- The text of a scalar, as it enters the hash of the natural key. -/
def scalarString : Value → String
  | .str s => s
  | .int n => toString n
  | .bool b => toString b
  | .time t => toString t
  | _ => ""

section

variable {α : Type}

/-- The shared-base columns of an entity and its natural key. -/
def sharedBaseValues (base : BaseSchema) (src : Entity α) : Fields × String :=
  (writeFields base.fields src.values, if base.naturalIDColumn ∈ columns base.fields then
      scalarString (src.values base.naturalIDColumn)
    else "")

/-- The instants the cascades of an archive verb acted on, absent for a cascade that did not
run. -/
structure CascadeStamps where
  own : Option Instant := none
  base : Option Instant := none
  deriving DecidableEq, Repr

/-- The instant that governs one child collection. -/
def CascadeStamps.forChild (c : CascadeStamps) (fromBase : Bool) : Option Instant :=
  if fromBase then c.base else c.own

/-- Whether the cascade of an archive verb reached the row of a loaded item. -/
def cascadeTouches (archive : Bool) (item cascade : Option Instant) : Bool :=
  match cascade with
  | none => false
  | some t => if archive then item.isNone else item = some t

/-- The operation a payload names for a child. -/
def childOpName (op : AggregateItemOp) (eventType : EventType)
    (childHasArchivedAt inCascade : Bool) : ChildOpName :=
  if eventType = .archived ∨ eventType = .unarchived then
    if !inCascade then .noop
    else if eventType = .archived then .archive
    else .unarchive
  else
    match op with
    | .insert => .insert
    | .update => .update
    | .delete => if childHasArchivedAt then .archive else .delete
    | .noop => .noop

/-- Every value is nil: the slice of a sibling that has no row. -/
def allNilFields (fields : List SchemaField) (values : String → Value) (jsonNull : String → Bool) :
    Bool :=
  (columns fields).all fun c => values c = .null && !jsonNull c

/-- The copy of the columns of one table that leaves with an event. -/
def syncFields (fields : List SchemaField) (values : String → Value) : Fields :=
  redactSyncColumns fields (writeFields fields values)

variable (schema : SchemaDecl) (src : Entity α)

/-- The managed timestamps a verb carries. -/
def managedTimestamps (now : Instant) : EventType → Fields
  | .inserted => schema.createdAt.toList.map (·, Value.time now) ++
      schema.updatedAt.toList.map (·, Value.time now) ++ schema.archivedAt.toList.map (·, .null)
  | .updated => schema.updatedAt.toList.map (·, .time now)
  | .archived => schema.archivedAt.toList.map (·, .time now)
  | .unarchived => schema.archivedAt.toList.map (·, .null)
  | .deleted => []

/-- The shared-base columns of a payload, with the separate link of the role. -/
def sharedBaseScalars (baseID : String) : Fields :=
  match schema.sharedBase with
  | some link =>
    if baseID = "" then [] else
      syncFields link.base.fields src.values ++
        if schema.sharedPK then [] else [(link.parentIDColumn, .str baseID)]
  | none => []

/-- The payload of a hard delete: the structural keys. -/
def buildDeletePayload (baseIDOf : String → String) (id : String) (ids : OutboxMeta) : Payload :=
  { scalars := (schema.idColumn, .str id) ::
      match schema.sharedBase with
      | some link =>
        let nk := (sharedBaseValues link.base src).2
        if schema.sharedPK ∨ nk = "" then [] else [(link.parentIDColumn, .str (baseIDOf nk))]
      | none => []
    ids }

variable [PersistentItem α]

/-- The column values of an inserted, updated or untouched child: its own, then those of each
sibling that has a row. -/
def childFields (child : ChildSchema) (item : α) : Fields :=
  child.siblings.foldl (fun m sib =>
    if allNilFields sib.fields (value item) (jsonNull item) then m
    else m.setAll (syncFields sib.fields (value item))) (syncFields child.fields (value item))

/-- One tracked child in a payload. -/
def childPayload (child : ChildSchema) (eventType : EventType) (cascade : Option Instant)
    (it : AggregateItemEntry α) : ChildPayload :=
  let inCascade := child.archivedAt.isSome &&
    cascadeTouches (eventType = .archived) (loadedArchivedAt it.item) cascade
  let op := childOpName it.operation eventType child.archivedAt.isSome inCascade
  let fields :=
    match op with
    | .archive => child.archivedAt.toList.map (·, stampValue cascade)
    | .unarchive => child.archivedAt.toList.map (·, Value.null)
    | .delete => []
    | .insert | .update | .noop => childFields child it.item
  { op
    fields := if getID it.item = "" then fields
      else set fields child.idColumn (.str (getID it.item)) }

/-- The blocks of children, own ones first: each tracked type the schema resolves, unless its list
is empty. -/
def childrenBlocks (root : Option (AggregateRoot α)) (eventType : EventType)
    (stamps : CascadeStamps) (fromBase : Bool) : AssocMap String (List ChildPayload) :=
  match root with
  | none => []
  | some ar => ar.aggregates.filterMap fun (typeName, items) =>
    match schema.resolveAggregateChild typeName with
    | some (child, isBase) =>
      if isBase = fromBase ∧ items ≠ [] then
        some (typeName, items.map (childPayload child eventType (stamps.forChild fromBase)))
      else none
    | none => none

/-- The payload of a verb with a body.  `rootFields` are the columns the root statement bound. -/
def buildWritePayload (root : Option (AggregateRoot α)) (eventType : EventType) (now : Instant)
    (stamps : CascadeStamps) (rootFields : Fields) (ids : OutboxMeta) : Payload :=
  { scalars := ((schema.siblings.foldl
        (fun out sib => out.setAll (syncFields sib.fields src.values))
        (redactSyncColumns schema.fields rootFields)).setAll
          (sharedBaseScalars schema src ids.baseID)).setAll
        (managedTimestamps schema now eventType)
    ids
    children := childrenBlocks schema root eventType stamps false
    baseChildren := childrenBlocks schema root eventType stamps true }

end

/-! ### The shared-base columns of a payload -/

section

variable {α : Type}

@[simp] theorem keys_syncFields (fields : List SchemaField) (values : String → Value) :
    keys (syncFields fields values) = columns fields := by
  simp [syncFields]

theorem get_syncFields (fields : List SchemaField) (values : String → Value) (c : String) :
    (syncFields fields values).get c =
      if c ∈ columns fields then some (redactValue fields c (values c)) else none := by
  rw [syncFields, get_redactSyncColumns, get_writeFields]
  split_ifs <;> rfl

variable {schema : SchemaDecl} {link : SharedBaseLink}

theorem managedTimestamps_keys {now : Instant} {ev : EventType} {c : String}
    (h : c ∈ (managedTimestamps schema now ev).keys) :
    c ∈ schema.archivedAt.toList ++ schema.createdAt.toList ++ schema.updatedAt.toList := by
  simp only [mem_append]
  cases ev <;>
    simp only [managedTimestamps, AssocMap.keys, map_append, map_map, mem_append,
      Function.comp_def, map_id', not_mem_nil, map_nil] at h <;> tauto

theorem parentIDColumn_mem_ownColumns (hs : schema.sharedBase = some link)
    (hpk : schema.sharedPK = false) : link.parentIDColumn ∈ schema.ownColumns := by
  have hne : link.parentIDColumn ≠ schema.idColumn := by simpa [sharedPK, hs] using hpk
  simp [ownColumns, hs, hne]

theorem get_buildWritePayload_base [PersistentItem α] {src : Entity α}
    {root : Option (AggregateRoot α)} {ev : EventType} {now : Instant} {stamps : CascadeStamps}
    {rootFields : Fields} {ids : OutboxMeta} {c : String} (hs : schema.sharedBase = some link)
    (hkeys : schema.documentKeys.Nodup) (hid : ids.baseID ≠ "")
    (hc : c ∈ columns link.base.fields) :
    (buildWritePayload schema src root ev now stamps rootFields ids).scalars.get c =
      some (redactValue link.base.fields c (src.values c)) := by
  have hbase : schema.sharedBaseBusinessColumns = columns link.base.fields := by
    simp [sharedBaseBusinessColumns, hs]
  rw [documentKeys, hbase, append_assoc, nodup_append] at hkeys
  obtain ⟨-, hkeys, hdisj⟩ := hkeys
  -- no column of the role hides a column of the base
  have hown : ∀ d ∈ schema.ownColumns, d ∉ columns link.base.fields := fun d hd hd' =>
    hdisj d hd d (mem_append_left _ hd') rfl
  have hmanaged : c ∉ (managedTimestamps schema now ev).keys := by
    intro h
    have h := managedTimestamps_keys h
    refine hown c ?_ hc
    simp only [ownColumns, mem_append] at h ⊢
    tauto
  have hnodup : (sharedBaseScalars schema src ids.baseID).keys.Nodup := by
    simp only [sharedBaseScalars, hs, hid, if_false]
    cases hpk : schema.sharedPK with
    | true => simpa using hkeys.of_append_left
    | false =>
      have := hown _ (parentIDColumn_mem_ownColumns hs hpk)
      simpa [AssocMap.keys_append, nodup_append] using
        ⟨hkeys.of_append_left, fun d hd he => this (he ▸ hd)⟩
  simp only [buildWritePayload]
  rw [get_setAll_of_not_mem _ hmanaged, get_setAll _ hnodup, sharedBaseScalars, hs]
  simp only [hid, if_false]
  rw [get_append, get_syncFields, if_pos hc]
  rfl

end

/-! ### The blocks of children -/

section

variable {α : Type} [PersistentItem α]

variable {eventType : EventType} {stamps : CascadeStamps}

theorem childrenBlocks_some (schema : SchemaDecl) (ar : AggregateRoot α) (fromBase : Bool) :
    childrenBlocks schema (some ar) eventType stamps fromBase = ar.aggregates.filterMap fun p =>
      ((schema.resolveAggregateChild p.1).bind fun r =>
        if r.2 = fromBase ∧ p.2 ≠ [] then
          some (p.2.map (childPayload r.1 eventType (stamps.forChild fromBase)))
        else none).map (p.1, ·) := by
  simp only [childrenBlocks]
  congr 1
  funext p
  obtain ⟨typeName, items⟩ := p
  cases schema.resolveAggregateChild typeName with
  | none => rfl
  | some r =>
    simp only [Option.bind_some]
    split_ifs <;> rfl

theorem keys_childrenBlocks_nodup (schema : SchemaDecl) (fromBase : Bool)
    {root : Option (AggregateRoot α)} (hroot : ∀ ar ∈ root, ar.aggregates.keys.Nodup) :
    (childrenBlocks schema root eventType stamps fromBase).keys.Nodup := by
  cases root with
  | none => exact nodup_nil
  | some ar =>
    rw [childrenBlocks_some]
    exact (hroot ar rfl).sublist (keys_filterMap_sublist (fun _ _ => rfl))

theorem get_childrenBlocks {ar : AggregateRoot α} (har : ar.aggregates.keys.Nodup)
    {schema : SchemaDecl} {c : ChildSchema} {fromBase : Bool}
    (hc : schema.resolveAggregateChild c.typeName = some (c, fromBase)) :
    ((childrenBlocks schema (some ar) eventType stamps fromBase).get c.typeName).getD [] =
      (ar.entries c.typeName).map (childPayload c eventType (stamps.forChild fromBase)) := by
  rw [childrenBlocks_some, get_filterMap (fun _ _ => rfl) har, AggregateRoot.entries]
  cases ar.aggregates.get c.typeName with
  | none => rfl
  | some items =>
    simp only [Option.bind_some, hc, true_and]
    split_ifs with h
    · rfl
    · simp [not_not.1 h]

end

/-- A child of one column, its business identity. -/
structure Address where
  id : String := ""
  street : String
  archivedAt : Option Instant := none
  deriving DecidableEq, Repr

instance : PersistentItem Address where
  classNameOf _ := "Address"
  collectionName _ := "Addresses"
  getID := Address.id
  withItemID x id := some { x with id }
  isSameBusinessIdentity x y := x.street == y.street
  value x c := if c = "street" then .str x.street else .null
  loadedArchivedAt := Address.archivedAt
  scan _ r :=
    { id := r.id, street := scalarString ((r.fields.get "street").getD .null)
      archivedAt := r.archivedAt }

end Omnicore.Write
