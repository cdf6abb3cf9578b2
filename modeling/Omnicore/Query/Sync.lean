import Omnicore.Query.PayloadProject

/-!
# Processing an event

What the sync engine does with an event of an aggregate on the document of an entity-rooted view
without embeds: it deletes the document or projects the payload, checks the write against the
tombstone of an earlier deletion, and, for a role, records the revision of the shared base, applies
the shared part of the payload to the documents of the identity and repairs a document that was
born late.

The documents of other aggregates and the slots of a rebuild are left out.

## Main definitions

* `EntityView`, `ViewState` : a view, and what the store and its registry keep of one document.
* `processEvent` : the obligations of one event.
-/

namespace Omnicore.Query

open Omnicore.Core Write

/-- An entity-rooted view without embeds. -/
structure EntityView where
  schema : TableSchema
  deleteOnArchive : Bool := false

variable (view : EntityView)

/-- The view for the composer. -/
def EntityView.toView : ViewDefinition := ⟨.entity view.schema.toSchemaDecl, view.deleteOnArchive⟩

/-- The record of a deletion: the last revision of the row, and its creation instant in
milliseconds, zero where the schema has none. -/
structure Tombstone where
  revision : ℕ
  createdAt : ℕ
  deriving DecidableEq, Repr

/-- One document with its tombstone, and the base revision recorded for its identity. -/
structure ViewState where
  doc : Option Doc := none
  tombstone : Option Tombstone := none
  stampedBaseRevision : ℕ := 0
  deriving DecidableEq

/-! ### Deletion -/

/-- The stored revision is not past a revision. -/
def revisionAtMost (d : Doc) (rev : ℕ) : Bool :=
  match d.get docRevisionField with
  | none => true
  | some (.int n) => n ≤ rev
  | some _ => false

/-- The document is of the incarnation born at an instant, or does not say when it was born. -/
def sameIncarnation (d : Doc) (createdAt : ℕ) : Bool :=
  match d.get "created_at" with
  | none => true
  | some (.time t) => createdAt / 1000 * 1000 - 1000 ≤ t && t < createdAt / 1000 * 1000 + 1000
  | some _ => false

/-- Delete a document that is not past a revision and, where the instant is known, of the same
incarnation. -/
def deleteGuarded (doc : Option Doc) (rev createdAt : ℕ) : Option Doc :=
  doc.filter fun d =>
    !(revisionAtMost d rev && (createdAt = 0 || sameIncarnation d createdAt))

/-- Record a deletion; the record only advances. -/
def stampTombstone (tombstone : Option Tombstone) (rev createdAt : ℕ) : Option Tombstone :=
  match tombstone with
  | none => some ⟨rev, createdAt⟩
  | some t =>
    if t.revision ≤ rev then some ⟨rev, if createdAt = 0 then t.createdAt else createdAt⟩
    else some t

variable (s : ViewState)

/-- The deletion of a row: recorded before the document goes; without a revision the document is
deleted in any case. -/
def applyDelete (rev createdAt : ℕ) : ViewState :=
  if rev = 0 then { s with doc := none }
  else
    { s with
      tombstone := stampTombstone s.tombstone rev createdAt
      doc := deleteGuarded s.doc rev createdAt }

/-- A write of a revision that a deletion has overtaken removes itself. -/
def checkTombstone (rev : ℕ) : ViewState :=
  match s.tombstone with
  | none => s
  | some t =>
    if t.revision = 0 ∨ t.revision < rev then s
    else { s with doc := deleteGuarded s.doc t.revision t.createdAt }

/-! ### The obligations of an event -/

/-- Whether an event removes the document. -/
def shouldDeleteFromView (eventType : EventType) (deleteOnArchive : Bool) : Bool :=
  match eventType with
  | .deleted => true
  | .archived => deleteOnArchive
  | _ => false

variable (ev : OutboxRow)

/-- The event on the document of its own aggregate. -/
def projectOwnView : Except String ViewState :=
  let ids := ev.payload.ids
  if shouldDeleteFromView ev.eventType view.deleteOnArchive then
    .ok (applyDelete s ids.revision (ids.createdAt.elim 0 PNat.val))
  else do
    let doc ← applyProjection s.doc ev.aggregateID
      (buildProjectionStages view.schema.toSchemaDecl ev.payload) true
    return checkTombstone { s with doc } ids.revision

/-- A composed document, written behind its guards and checked against the tombstone. -/
def consultUpsert (id : String) (doc : Doc) : Except String ViewState := do
  let stored ← applyConsultUpsert view.toView s.doc id doc
  return checkTombstone { s with doc := stored } (watermarkOf (doc.get docRevisionField)).toNat

/-- The shared part of a role's event on its own document, found by its link to the base. -/
def fanOutSharedBasePayload : Except String ViewState :=
  match view.schema.sharedBase with
  | none => .ok s
  | some link =>
    let stages := buildFanOutStages view.schema.toSchemaDecl ev.payload
    if stages ≠ [] ∧
        s.doc.any fun d => d.get link.parentIDColumn = some (.str ev.payload.ids.baseID) then do
      let doc ← applyProjection s.doc ev.aggregateID stages false
      return { s with doc }
    else .ok s

/-- A document born after the base was pushed at a later revision is composed from the rows. -/
def pullSideRepair (db : Database) (s : ViewState) (ev : OutboxRow) : Except String ViewState :=
  if s.stampedBaseRevision ≤ ev.payload.ids.baseRevision then .ok s
  else
    match compose view.toView db ev.aggregateID with
    | none => .ok s
    | some doc => consultUpsert view s ev.aggregateID doc

/-- The event is one of a role, with the identity of its base. -/
def ofRole : Bool := view.schema.sharedBase.isSome && ev.payload.ids.baseID ≠ ""

variable {view ev} in
theorem isSome_of_ofRole (h : ofRole view ev = true) : view.schema.sharedBase.isSome :=
  (Bool.and_eq_true_iff.1 h).1

/-- The obligations of an event on one document, the rows being those of `db`. -/
def processEvent (db : Database) (s : ViewState) (ev : OutboxRow) : Except String ViewState := do
  let s ← projectOwnView view s ev
  if ofRole view ev then
    -- recorded before the documents of the identity are looked for
    let s := { s with
      stampedBaseRevision := max s.stampedBaseRevision ev.payload.ids.baseRevision }
    let s ← fanOutSharedBasePayload view s ev
    if 0 < ev.payload.ids.baseRevision ∧
        (ev.eventType = .inserted ∨ ev.eventType = .unarchived) then
      pullSideRepair view db s ev
    else return s
  else return s

end Omnicore.Query
