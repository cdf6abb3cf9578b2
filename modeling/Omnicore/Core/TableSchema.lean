import Mathlib.Data.PNat.Basic
import Mathlib.Data.List.Nodup
import Omnicore.Lib.Document

/-!
# Table schemas

A schema maps an entity onto its tables: the root table, the sibling tables that share its primary
key, the tables of the aggregate's children and, for a role of a shared identity, the base table
with the base's native children.  The document of the entity mirrors the physical columns of all
of these side by side, each child collection under its own segment; `TableSchema` carries the
bijection between keys and columns that this needs, and `SchemaDecl` is the bare declaration.

## Main definitions

* `SchemaDecl`, `TableSchema` : the declaration of a root or role, and a well-formed one.
* `redactSyncColumns` : the redaction of the copies that leave the relational store.
* `writeFields` : the column values an entity binds in a statement.
-/

namespace Omnicore.Core

open List AssocMap

/-- An instant of the write clock, in milliseconds; the zero time is not one. -/
abbrev Instant := ℕ+

/-- The instant a positive number of milliseconds after the zero time. -/
def Instant.ms (n : ℕ) : Instant := n.toPNat'

/-- A time that may be the zero time. -/
def stampValue : Option Instant → Value
  | some t => .time t
  | none => .time 0

/-- A nullable timestamp column. -/
def nullable : Option Instant → Value
  | some t => .time t
  | none => .null

/-- Column values, keyed by column. -/
abbrev Fields := AssocMap String Value

/-- A mapped column with the redactor of its copies, absent where the field is plain. -/
structure SchemaField where
  column : String
  inSync : Option (Value → Value) := none

/-- Redact one value; null stays null. -/
def SchemaField.redact (f : SchemaField) (v : Value) : Value :=
  match f.inSync with
  | some r => if v = .null then .null else r v
  | none => v

variable (fields : List SchemaField) (m : Fields) (values : String → Value)

/-- The mapped columns, in declaration order. -/
def columns : List String := fields.map SchemaField.column

/-- The value a copy of the row shows for a column. -/
def redactValue (k : String) (v : Value) : Value :=
  match fields.find? (·.column = k) with
  | some f => f.redact v
  | none => v

/-- Redact the columns the schema owns; other keys are left untouched. -/
def redactSyncColumns : Fields := m.map fun p => (p.1, redactValue fields p.1 p.2)

/-- The column values of an entity. -/
def writeFields : Fields := (columns fields).map fun c => (c, values c)

@[simp] theorem keys_writeFields : keys (writeFields fields values) = columns fields := by
  simp [AssocMap.keys, writeFields, Function.comp_def]

theorem get_writeFields (c : String) :
    (writeFields fields values).get c = if c ∈ columns fields then some (values c) else none :=
  get_ofKeys ..

@[simp] theorem keys_redactSyncColumns : keys (redactSyncColumns fields m) = m.keys := by
  simp [AssocMap.keys, redactSyncColumns, Function.comp_def]

theorem get_redactSyncColumns (c : String) :
    (redactSyncColumns fields m).get c = (m.get c).map (redactValue fields c) :=
  get_map m (redactValue fields) c

/-- What `WireFieldOf` makes of an id column: the Go name of every id is fixed. -/
def idField : String := "id"

/-- A sibling table: a slice of its owner's columns. -/
structure SiblingSchema where
  fields : List SchemaField

/-- A child table of an aggregate or of a shared base. -/
structure ChildSchema where
  /-- The Go type of the child, its key in the aggregate. -/
  typeName : String
  table : String
  /-- The document segment of the collection. -/
  segment : String
  idColumn : String
  parentIDColumn : String
  fields : List SchemaField
  siblings : List SiblingSchema := []
  archivedAt : Option String := none

/-- What becomes of a shared base no role references any more. -/
inductive OrphanPolicy where
  | keepOrphan
  | deleteWhenUnreferenced
  deriving DecidableEq, Repr

/-- A shared base: an identity table several roles reference. -/
structure BaseSchema where
  table : String
  idColumn : String
  fields : List SchemaField
  naturalIDColumn : String
  revisionColumn : String
  archivedAt : Option String := none
  createdAt : Option String := none
  updatedAt : Option String := none
  orphanPolicy : OrphanPolicy := .keepOrphan
  children : List ChildSchema := []
  /-- The natural id on the wire. -/
  naturalIDField : String := naturalIDColumn

/-- The link of a role to its shared base. -/
structure SharedBaseLink where
  base : BaseSchema
  parentIDColumn : String

/-- The declaration of a root or role. -/
structure SchemaDecl where
  table : String
  idColumn : String
  fields : List SchemaField
  revisionColumn : String
  siblings : List SiblingSchema := []
  archivedAt : Option String := none
  createdAt : Option String := none
  updatedAt : Option String := none
  children : List ChildSchema := []
  sharedBase : Option SharedBaseLink := none

open SchemaDecl

namespace SchemaDecl

variable (s : SchemaDecl)

/-- The role shares the base's id as its own primary key. -/
def sharedPK : Bool := s.sharedBase.any (·.parentIDColumn = s.idColumn)

/-- The columns of the root row and of its siblings, with the separate link to the base. -/
def ownColumns : List String :=
  s.idColumn :: columns s.fields ++ s.siblings.flatMap (columns ·.fields) ++
    s.archivedAt.toList ++ s.createdAt.toList ++ s.updatedAt.toList ++
    (s.sharedBase.toList.map (·.parentIDColumn)).filter (· ≠ s.idColumn)

/-- The business columns of the shared base. -/
def sharedBaseBusinessColumns : List String :=
  match s.sharedBase with
  | some link => columns link.base.fields
  | none => []

/-- The native children of the shared base. -/
def baseChildren : List ChildSchema :=
  match s.sharedBase with
  | some link => link.base.children
  | none => []

/-- The own children, then those of the shared base. -/
def allChildren : List ChildSchema := s.children ++ s.baseChildren

/-- The keys of a document of the schema. -/
def documentKeys : List String :=
  s.ownColumns ++ s.sharedBaseBusinessColumns ++ s.allChildren.map ChildSchema.segment

/-- The schema of a child type, with the owner it belongs to. -/
def resolveAggregateChild (typeName : String) : Option (ChildSchema × Bool) :=
  match s.children.find? (·.typeName = typeName) with
  | some c => some (c, false)
  | none => (s.baseChildren.find? (·.typeName = typeName)).map (·, true)

end SchemaDecl

/-- The reserved keys of documents and payloads. -/
def reservedKeys : List String :=
  ["_id", "_revision", "_base_revision", "_ids", "_children", "_base_children"]

/-- The keys of a child's document element. -/
def ChildSchema.elementKeys (c : ChildSchema) : List String :=
  c.idColumn :: columns c.fields ++ c.siblings.flatMap (columns ·.fields) ++ c.archivedAt.toList

/-- A schema whose documents hold each column and each collection under a key of its own, and
whose children are declared once, each with its own table. -/
structure TableSchema extends SchemaDecl where
  keys_nodup : toSchemaDecl.documentKeys.Nodup := by decide
  keys_not_reserved : ∀ k ∈ toSchemaDecl.documentKeys, k ∉ reservedKeys := by decide
  revision_not_key : revisionColumn ∉ toSchemaDecl.documentKeys := by decide
  types_nodup : (toSchemaDecl.allChildren.map ChildSchema.typeName).Nodup := by decide
  tables_nodup : (toSchemaDecl.allChildren.map ChildSchema.table).Nodup := by decide
  elements_nodup : ∀ c ∈ toSchemaDecl.allChildren, c.elementKeys.Nodup ∧ "_rev" ∉ c.elementKeys
    := by decide

instance : CoeOut TableSchema SchemaDecl := ⟨TableSchema.toSchemaDecl⟩

/-! ### Children of a schema -/

theorem SchemaDecl.mem_of_resolveAggregateChild {s : SchemaDecl} {typeName : String}
    {c : ChildSchema} {fromBase : Bool}
    (h : s.resolveAggregateChild typeName = some (c, fromBase)) :
    (c ∈ if fromBase then s.baseChildren else s.children) ∧ c.typeName = typeName := by
  rw [resolveAggregateChild] at h
  split at h
  · rename_i c' hc
    cases h
    exact ⟨mem_of_find?_eq_some hc, by simpa using find?_some hc⟩
  · obtain ⟨c', hc, he⟩ := Option.map_eq_some_iff.1 h
    cases he
    exact ⟨mem_of_find?_eq_some hc, by simpa using find?_some hc⟩

theorem SchemaDecl.resolveAggregateChild_some {s : SchemaDecl} {typeName : String}
    {c : ChildSchema} {fromBase : Bool}
    (h : s.resolveAggregateChild typeName = some (c, fromBase)) :
    c ∈ s.allChildren ∧ c.typeName = typeName := by
  obtain ⟨hmem, ht⟩ := mem_of_resolveAggregateChild h
  refine ⟨?_, ht⟩
  cases fromBase
  · exact mem_append_left _ hmem
  · exact mem_append_right _ hmem

namespace TableSchema

variable (s : TableSchema) {c c' : ChildSchema}

section

variable (hc : c ∈ s.allChildren) (hc' : c' ∈ s.allChildren)
include hc hc'

theorem typeName_injOn (h : c.typeName = c'.typeName) : c = c' :=
  inj_on_of_nodup_map s.types_nodup hc hc' h

theorem segment_injOn (h : c.segment = c'.segment) : c = c' :=
  inj_on_of_nodup_map s.keys_nodup.of_append_right hc hc' h

theorem table_injOn (h : c.table = c'.table) : c = c' := inj_on_of_nodup_map s.tables_nodup hc hc' h

end

theorem own_table_ne_base (hc : c ∈ s.children) (hc' : c' ∈ s.baseChildren) :
    c.table ≠ c'.table := by
  have hnodup := s.tables_nodup
  rw [allChildren, map_append, nodup_append] at hnodup
  exact hnodup.2.2 _ (mem_map_of_mem hc) _ (mem_map_of_mem hc')

theorem reserved_not_key {k : String} (hk : k ∈ reservedKeys) :
    k ∉ s.ownColumns ∧ k ∉ s.sharedBaseBusinessColumns ∧
      k ∉ s.allChildren.map ChildSchema.segment := by
  have h := fun hmem => s.keys_not_reserved k hmem hk
  simp only [documentKeys, mem_append] at h
  tauto

theorem ownColumn_disjoint {k : String} (hk : k ∈ s.ownColumns) :
    k ∉ s.sharedBaseBusinessColumns ∧ k ∉ s.allChildren.map ChildSchema.segment := by
  have h := s.keys_nodup
  rw [documentKeys, append_assoc, nodup_append] at h
  exact ⟨fun hmem => h.2.2 k hk k (mem_append_left _ hmem) rfl,
    fun hmem => h.2.2 k hk k (mem_append_right _ hmem) rfl⟩

theorem baseColumn_not_segment {k : String} (hk : k ∈ s.sharedBaseBusinessColumns) :
    k ∉ s.allChildren.map ChildSchema.segment := by
  have h := s.keys_nodup
  rw [documentKeys, append_assoc, nodup_append] at h
  exact fun hmem => (nodup_append.1 h.2.1).2.2 k hk k hmem rfl

theorem resolveAggregateChild_of_mem (hc : c ∈ s.allChildren) :
    ∃ fromBase, s.resolveAggregateChild c.typeName = some (c, fromBase) := by
  cases h : s.resolveAggregateChild c.typeName with
  | none =>
    exfalso
    rw [resolveAggregateChild] at h
    split at h
    · cases h
    · rename_i hown
      simp only [Option.map_eq_none_iff, find?_eq_none, decide_eq_true_eq] at h hown
      rcases mem_append.1 hc with hc | hc
      · exact hown c hc rfl
      · exact h c hc rfl
  | some r =>
    obtain ⟨c', fromBase⟩ := r
    obtain ⟨hmem, ht⟩ := resolveAggregateChild_some h
    exact ⟨fromBase, by rw [s.typeName_injOn hmem hc ht]⟩

theorem resolveAggregateChild_base (hc : c ∈ s.baseChildren) :
    s.resolveAggregateChild c.typeName = some (c, true) := by
  obtain ⟨fromBase, hres⟩ := s.resolveAggregateChild_of_mem (mem_append_right _ hc)
  cases fromBase with
  | true => exact hres
  | false => exact absurd rfl (s.own_table_ne_base (mem_of_resolveAggregateChild hres).1 hc)

end TableSchema

end Omnicore.Core
