import Omnicore.Write.SharedBaseWrite

/-!
# The composer

A view document is a mirror of relational rows.  An entity-rooted view shows one root row with its
shared base merged flat and its own and the base's children nested; a base-rooted view shows one
identity with its native children and one sub-document per declared role.  The revision columns of
the rows become watermarks of the document, and redacted columns show what a copy may show.

## Main definitions

* `ViewDefinition` : a view without embeds.
* `compose` : the document of an id, absent when its root row is gone or hidden.

## Main results

* `compose_entity` : the collections of a composed root row.
-/

namespace Omnicore.Query

open Omnicore.Core Write AssocMap List.Sublist ChildSchema Option

/-- The watermark of the root row. -/
def docRevisionField : String := "_revision"

/-- The watermark of the shared base row. -/
def docBaseRevisionField : String := "_base_revision"

section

variable (schema : TableSchema)

theorem revision_not_key : docRevisionField ∉ schema.ownColumns ∧
    docRevisionField ∉ schema.sharedBaseBusinessColumns ∧
      docRevisionField ∉ schema.allChildren.map segment :=
  schema.reserved_not_key (by decide)

theorem baseRevision_not_key : docBaseRevisionField ∉ schema.ownColumns ∧
    docBaseRevisionField ∉ schema.sharedBaseBusinessColumns ∧
      docBaseRevisionField ∉ schema.allChildren.map segment :=
  schema.reserved_not_key (by decide)

end

/-- A role of a base-rooted view and the segment of its sub-document. -/
structure RoleDef where
  schema : SchemaDecl
  segment : String

/-- What a view is rooted at. -/
inductive ViewRoot where
  | entity (schema : SchemaDecl)
  | sharedBase (base : BaseSchema) (roles : List RoleDef)

/-- A view without embeds. -/
structure ViewDefinition where
  root : ViewRoot
  deleteOnArchive : Bool := false

/-! ### Rows as documents -/

/-- The mapped columns of a row, redacted. -/
def readFields (fields : List SchemaField) (stored : Fields) : Doc :=
  (columns fields).map fun c => (c, redactValue fields c ((stored.get c).getD .null))

/-- A base row as a document. -/
def baseRowDoc (base : BaseSchema) (b : BaseRow) : Doc :=
  (base.idColumn, .str b.id) :: readFields base.fields b.fields ++
    base.archivedAt.toList.map (·, nullable b.archivedAt) ++
    base.createdAt.toList.map (·, nullable b.createdAt) ++
    base.updatedAt.toList.map (·, nullable b.updatedAt)

variable (db : Database) (schema : SchemaDecl) (child : ChildSchema) (role : SchemaDecl)
  (r : RootRow)

/-- A root or role row as a document, with its watermark. -/
def rootRowDoc : Doc :=
  (schema.idColumn, .str r.id) :: readFields schema.fields r.fields ++
    schema.archivedAt.toList.map (·, nullable r.archivedAt) ++
    schema.createdAt.toList.map (·, nullable r.createdAt) ++
    schema.updatedAt.toList.map (·, nullable r.updatedAt) ++
    ((schema.sharedBase.toList.map (·.parentIDColumn)).filter (· ≠ schema.idColumn)).map
      (·, .str r.parentID) ++
    [(docRevisionField, .int r.revision)]

/-- A child row as an element of its segment. -/
def childRowDoc (r : ChildRow) : Doc :=
  (child.idColumn, .str r.id) :: readFields child.fields r.fields ++
    child.archivedAt.toList.map (·, nullable r.archivedAt) ++
    [(child.parentIDColumn, .str r.parentID)]

/-- The rows of a child table that reference an owner, archived ones only on demand. -/
def fetchWhere (ownerID : String) (includeArchived : Bool) : List ChildRow :=
  (db.children child.table).rows.filter fun r =>
    r.parentID = ownerID && (includeArchived || child.archivedAt.isNone || r.archivedAt.isNone)

/-- The segment of a child collection. -/
def childSegment (ownerID : String) (includeArchived : Bool) : Value :=
  .arr ((fetchWhere db child ownerID includeArchived).map fun r => .doc (childRowDoc child r))

/-- Nest the collections of an owner. -/
def mergeChildren (children : List ChildSchema) (ownerID : String) (includeArchived : Bool)
    (doc : Doc) : Doc :=
  children.foldl (fun doc child =>
    doc.set child.segment (childSegment db child ownerID includeArchived)) doc

/-! ### The shared base of a role -/

/-- The base columns that do not land on a role's document: the id, and each managed column of a
kind the role declares itself. -/
def sharedBaseSkipSet (base : BaseSchema) (role : SchemaDecl) : List String :=
  base.idColumn :: (if role.archivedAt.isSome then base.archivedAt.toList else []) ++
    (if role.createdAt.isSome then base.createdAt.toList else []) ++
    (if role.updatedAt.isSome then base.updatedAt.toList else [])

/-- Merge the shared base row of a role flat into its document. -/
def mergeSharedBase (doc : Doc) : Doc :=
  match schema.sharedBase with
  | none => doc
  | some link =>
    match db.base (r.link schema) with
    | none => doc
    | some b =>
      doc.setAll (((baseRowDoc link.base b).filter (·.1 ∉ sharedBaseSkipSet link.base schema)) ++
        [(docBaseRevisionField, .int b.revision)])

/-! ### Role sub-documents -/

/-- The most recently archived of some rows. -/
def fetchLatestArchived (rows : List RootRow) : Option RootRow :=
  (rows.filter (·.archivedAt.isSome)).foldl (fun best r =>
    match best with
    | none => some r
    | some b => if b.archivedAt.elim 0 PNat.val < r.archivedAt.elim 0 PNat.val then some r
      else some b) none

/-- The row that represents a role of an identity: the active one, otherwise the most recently
archived one where archived rows compose. -/
def fetchRoleRow (baseID : String) (includeArchived : Bool) : Option RootRow :=
  let rows := (db.roots role.table).rows.filter (·.link role = baseID)
  if role.archivedAt.isNone then rows.head?
  else
    match rows.find? (·.archivedAt.isNone) with
    | some r => some r
    | none => if includeArchived then fetchLatestArchived rows else none

/-- The sub-document of a role, null for an absent one. -/
def roleSegment (baseID : String) (includeArchived : Bool) : Value :=
  match fetchRoleRow db role baseID includeArchived with
  | none => .null
  | some r => .doc (mergeChildren db role.children r.id includeArchived (rootRowDoc role r))

/-! ### Composition -/

/-- The document of one id. -/
def compose (view : ViewDefinition) (db : Database) (id : String) : Option Doc :=
  let includeArchived := !view.deleteOnArchive
  match view.root with
  | .entity schema =>
    ((db.root schema.table id).filter fun r => includeArchived || r.isActive schema).map fun r =>
      mergeChildren db schema.children r.id includeArchived <|
        mergeChildren db schema.baseChildren (r.link schema) includeArchived <|
          mergeSharedBase db schema r (rootRowDoc schema r)
  | .sharedBase base roles =>
    ((db.base id).filter fun b =>
        includeArchived || base.archivedAt.isNone || b.archivedAt.isNone).map fun b =>
      roles.foldl (fun doc role =>
          doc.set role.segment (roleSegment db role.schema id includeArchived)) <|
        mergeChildren db base.children id includeArchived <|
          baseRowDoc base b ++ [(docRevisionField, .int b.revision)]

/-! ### Entity-rooted documents -/

theorem keys_rootRowDoc :
    ∃ ks, keys (rootRowDoc schema r) = ks ++ [docRevisionField] ∧ ks.Sublist schema.ownColumns := by
  refine ⟨schema.idColumn :: columns schema.fields ++ [] ++ schema.archivedAt.toList ++
    schema.createdAt.toList ++ schema.updatedAt.toList ++
    (schema.sharedBase.toList.map SharedBaseLink.parentIDColumn).filter (· ≠ schema.idColumn),
    ?_, ?_⟩
  · simp [rootRowDoc, keys, readFields, Function.comp_def]
  · refine append_right (append_right (append_right
      (append_right (append_left (List.nil_sublist _) _) _) _) _) _

theorem keys_rootRowDoc_nodup (schema : TableSchema) (r : RootRow) :
    (keys (rootRowDoc schema r)).Nodup := by
  obtain ⟨ks, hkeys, hsub⟩ := keys_rootRowDoc schema r
  have hown : schema.ownColumns.Nodup := schema.keys_nodup.of_append_left.of_append_left
  have hrev := (revision_not_key schema).1
  rw [hkeys, List.nodup_append]
  refine ⟨hown.sublist hsub, List.nodup_singleton _, fun a ha b hb he => ?_⟩
  rw [List.mem_singleton] at hb
  exact hrev (hb ▸ he ▸ hsub.subset ha)

/-- The composition of a visible row: its collections, and a creation instant where the schema
declares one. -/
theorem compose_entity {schema : TableSchema} {db : Database} {id : String} {r : RootRow}
    (deleteOnArchive : Bool) (hr : db.root schema.table id = some r)
    (hvisible : (!deleteOnArchive || r.isActive schema) = true) :
    ∃ d, compose ⟨.entity schema, deleteOnArchive⟩ db id = some d ∧
      (∀ c ∈ schema.children, d.get c.segment = some (childSegment db c id (!deleteOnArchive))) ∧
      (∀ c ∈ schema.baseChildren, d.get c.segment =
        some (childSegment db c (r.link schema) (!deleteOnArchive))) ∧
      ∀ col ∈ schema.createdAt, (d.get col).isSome := by
  have hid : r.id = id := (Table.find_eq_some_iff.1 hr).2
  have hnodup : (schema.allChildren.map segment).Nodup := schema.keys_nodup.of_append_right
  rw [SchemaDecl.allChildren, List.map_append, List.nodup_append] at hnodup
  obtain ⟨hown, hbase, hdisj⟩ := hnodup
  have hcomp : compose ⟨.entity schema, deleteOnArchive⟩ db id =
      some (mergeChildren db schema.children r.id (!deleteOnArchive) <|
        mergeChildren db schema.baseChildren (r.link schema) (!deleteOnArchive) <|
          mergeSharedBase db schema r (rootRowDoc schema r)) := by
    simp [compose, hr, filter_some, hvisible, map_some]
  refine ⟨_, hcomp, fun c hc => ?_, fun c hc => ?_, fun col hcol => ?_⟩
  · rw [hid, mergeChildren]
    exact get_foldl_set_of_mem _ _ hown hc
  · have hnot : c.segment ∉ schema.children.map segment := fun hmem =>
      hdisj _ hmem _ (List.mem_map_of_mem hc) rfl
    rw [mergeChildren, get_foldl_set _ _ _ _ hnot, mergeChildren]
    exact get_foldl_set_of_mem _ _ hbase hc
  · rw [isSome_iff_ne_none, Ne, get_eq_none_iff, not_not]
    refine mem_keys_foldl_set _ _ _ (mem_keys_foldl_set _ _ _ ?_)
    have hroot : col ∈ keys (rootRowDoc schema r) := by
      simp [rootRowDoc, mem_def.1 hcol, keys]
    rw [mergeSharedBase]
    split
    · exact hroot
    · split
      · exact hroot
      · exact mem_keys_setAll.2 (.inl hroot)

end Omnicore.Query
