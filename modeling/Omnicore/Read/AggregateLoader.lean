import Omnicore.Domain.ChildIdentity
import Omnicore.Write.SharedBaseWrite

/-!
# Loading aggregates and shared identities

A role inserted onto an existing identity is not built from nothing: the loader finds the base row
by its natural key and hands out a new entity with the columns of the base and the base's native
children as loaded ones.  All rows that reference the base are loaded, archived or not.

An aggregate is loaded by a query that must match one row.  The scope of the query decides which
rows it sees: the active ones alone, with their active children, or archived ones too, with all of
their children.

## Main definitions

* `loadSharedBaseIdentity` : the identity a role is inserted onto.
* `AggregateLoader.findOne` : the aggregate a command works on.

## Main results

* `loadSharedBaseIdentity_ok` : what a load that finds the identity returns.
* `AggregateLoader.findOne_ok` : what a load of an aggregate returns.
-/

namespace Omnicore.Read

open Omnicore.Core Domain Write List

/-- A new entity of a repository: its name, the values of its fields and the child types its
aggregate declares, absent for a type without one. -/
structure EntityFactory where
  name : String := ""
  values : String → Value := fun _ => .null
  aggregateChildren : Option (List String) := none

section

variable {α : Type} [PersistentItem α]

/-- The rows of a native child that a load of the base reads; a child without mapped columns is
skipped. -/
def baseChildRows (db : Database) (baseID : String) (bc : ChildSchema) : List ChildRow :=
  if bc.fields = [] then [] else (db.children bc.table).rows.filter (·.parentID = baseID)

/-- The native children of a base. -/
def loadBaseChildren (db : Database) (base : BaseSchema) (baseID : String) : List α :=
  base.children.flatMap fun bc => (baseChildRows db baseID bc).map (scan bc)

/-- The base row of a natural key. -/
def findBaseByNaturalKey (db : Database) (base : BaseSchema) (nk : String) : Option BaseRow :=
  db.bases.rows.find? fun b =>
    scalarString ((b.fields.get base.naturalIDColumn).getD .null) = nk

/-- The entity of an existing identity: the columns of the base, and its native children. -/
def identityEntity (newEntity : EntityFactory) (db : Database) (base : BaseSchema) (b : BaseRow) :
    Entity α where
  name := newEntity.name
  values c := if c ∈ columns base.fields then (b.fields.get c).getD .null else newEntity.values c
  root := newEntity.aggregateChildren.map fun declared =>
    constructed declared ((loadBaseChildren db base b.id).map some)

/-- Load the identity of the natural key of `fresh`, as a new entity; without one, `fresh` is
inserted cold.  An active role of the identity refuses the load. -/
def loadSharedBaseIdentity (newEntity : EntityFactory) (schema : SchemaDecl) (db : Database)
    (fresh : Entity α) : Except WriteError (Entity α × Bool) :=
  match schema.sharedBase with
  | none => .ok (fresh, false)
  | some link =>
    if link.base.naturalIDColumn ∉ columns link.base.fields then
      .error (.failed ("AggregateLoader[" ++ newEntity.name ++ "]: shared base natural key \"" ++
        link.base.naturalIDColumn ++ "\" has no Go field"))
    else
      let nk := (sharedBaseValues link.base fresh).2
      if nk = "" then .ok (fresh, false)
      else
        match findBaseByNaturalKey db link.base nk with
        | none => .ok (fresh, false)
        | some b =>
          if findActiveRoleByFK db schema b.id then
            .error (.entityAlreadyAdded newEntity.name idField)
          else .ok (identityEntity newEntity db link.base b, true)

theorem loadSharedBaseIdentity_ok {newEntity : EntityFactory} {schema : SchemaDecl}
    {link : SharedBaseLink} (hlink : schema.sharedBase = some link) {db : Database}
    {fresh entity : Entity α}
    (h : loadSharedBaseIdentity newEntity schema db fresh = .ok (entity, true)) :
    ∃ b ∈ db.bases.rows, entity = identityEntity newEntity db link.base b := by
  simp only [loadSharedBaseIdentity, hlink] at h
  split_ifs at h
  · cases h
  · split at h
    · cases h
    · rename_i b hb
      split_ifs at h
      cases h
      exact ⟨b, mem_of_find?_eq_some hb, rfl⟩

/-! ### The tracked lists after a load -/

/-- The scan of a row makes a value of the child's type that carries the id of the row. -/
def ScansChildren (α : Type) [PersistentItem α] (children : List ChildSchema) : Prop :=
  ∀ c ∈ children, ∀ r, classNameOf (scan c r : α) = c.typeName ∧ getID (scan c r : α) = r.id

theorem keys_nodup_constructed (declared : List String) (items : List α) :
    (constructed declared (items.map some)).aggregates.keys.Nodup := by
  rw [constructed, AggregateRoot.aggregateConstructor, foldl_map]
  refine foldlRecOn (motive := fun ar : AggregateRoot α => ar.aggregates.keys.Nodup) _ _
    nodup_nil fun ar h x _ => AssocMap.keys_set_nodup h

theorem loadBaseChildren_typeName {db : Database} {base : BaseSchema} {baseID : String}
    (hscan : ScansChildren α base.children)
    (htypes : (base.children.map ChildSchema.typeName).Nodup) {c : ChildSchema}
    (hc : c ∈ base.children) :
    (loadBaseChildren db base baseID : List α).filter (classNameOf · = c.typeName) =
      (baseChildRows db baseID c).map (scan c) := by
  rw [loadBaseChildren]
  generalize base.children = children at *
  induction children with
  | nil => cases hc
  | cons c0 children ih =>
    rw [map_cons, nodup_cons] at htypes
    obtain ⟨hscan0, hscan⟩ := forall_mem_cons.1 hscan
    have hhead : ((baseChildRows db baseID c0).map (scan c0 : ChildRow → α)).filter
        (classNameOf · = c.typeName) = if c0.typeName = c.typeName then
          (baseChildRows db baseID c0).map (scan c0) else [] := by
      split_ifs with he
      · simp [(hscan0 _).1, he]
      · simp [(hscan0 _).1, he]
    rw [flatMap_cons, filter_append, hhead]
    by_cases he : c0 = c
    · subst he
      have hrest : (children.flatMap fun bc =>
          (baseChildRows db baseID bc).map (scan bc : ChildRow → α)).filter
            (classNameOf · = c0.typeName) = [] := by
        rw [filter_eq_nil_iff]
        intro x hx
        obtain ⟨bc, hbc, hx⟩ := mem_flatMap.1 hx
        obtain ⟨r, -, rfl⟩ := mem_map.1 hx
        rw [(hscan bc hbc r).1, decide_eq_true_eq]
        exact fun he => htypes.1 (he ▸ mem_map_of_mem hbc)
      rw [hrest, if_pos rfl, append_nil]
    · have hmem : c ∈ children := (mem_cons.1 hc).resolve_left (Ne.symm he)
      have hne : c0.typeName ≠ c.typeName := fun h =>
        htypes.1 (h ▸ mem_map_of_mem hmem)
      rw [if_neg hne, nil_append]
      exact ih hscan htypes.2 hmem

/-! ### Aggregates -/

/-- The rows a query sees. -/
inductive Scope where
  | active
  | onlyArchived
  | includeArchived
  deriving DecidableEq, Repr

/-- The gate of a scope on the rows of a root; without an archived state there is none. -/
def scopeGate (scope : Scope) (schema : SchemaDecl) (r : RootRow) : Bool :=
  schema.archivedAt.isNone ||
    match scope with
    | .active => r.archivedAt.isNone
    | .onlyArchived => r.archivedAt.isSome
    | .includeArchived => true

/-- The gate of a scope on the rows of a child: under an archived scope all of them are loaded. -/
def childScopeFilter (scope : Scope) (child : ChildSchema) (r : ChildRow) : Bool :=
  child.archivedAt.isNone || scope ≠ .active || r.archivedAt.isNone

/-- The children of one type a load reads for an owner. -/
def scopedRows (db : Database) (scope : Scope) (ownerID : String) (child : ChildSchema) :
    List ChildRow :=
  (db.children child.table).rows.filter fun r =>
    r.parentID = ownerID && childScopeFilter scope child r

/-- The loader of a repository: the entity it fills, the Go type of that, and its schema. -/
structure AggregateLoader extends EntityFactory where
  goType : String := ""
  schema : TableSchema

namespace AggregateLoader

variable (l : AggregateLoader)

variable (db : Database) (scope : Scope) (r : RootRow)

/-- The columns of the entity: those of the row, and those of the base the row references. -/
def loadedValues (c : String) : Value :=
  if c ∈ columns l.schema.fields then (r.fields.get c).getD .null
  else
    match l.schema.sharedBase with
    | none => l.values c
    | some link =>
      if c ∈ columns link.base.fields then
        match db.base (r.link l.schema.toSchemaDecl) with
        | some b => (b.fields.get c).getD .null
        | none => l.values c
      else l.values c

/-- A child that declares no columns cannot be loaded. -/
def requireColumns (what : String) (children : List ChildSchema) : Except WriteError Unit :=
  match children.find? (·.fields = []) with
  | none => .ok ()
  | some c => .error (.failed ("AggregateLoader[" ++ l.name ++ "] " ++ what ++ " \"" ++
      c.typeName ++ "\": schema declares no columns"))

/-- Every child collection of an aggregate declares columns; a flat entity has none to load. -/
def checkChildren : Except WriteError Unit :=
  match l.aggregateChildren with
  | none => .ok ()
  | some _ => do
    l.requireColumns "child" l.schema.children
    l.requireColumns "base child" l.schema.baseChildren

/-- `hydrateChildren`, `hydrateBaseChildren`: the own children of the row in the scope, then the
native children of its base. -/
def hydrateChildren : List α :=
  l.schema.children.flatMap (fun c => (scopedRows db scope r.id c).map (scan c)) ++
    l.schema.baseChildren.flatMap fun c =>
      (scopedRows db scope (r.link l.schema.toSchemaDecl) c).map (scan c)

/-- The aggregate of a row. -/
def hydrate : Except WriteError (Entity α) := do
  l.checkChildren
  return {
    name := l.name
    id := r.id
    values := l.loadedValues db r
    revision := r.revision
    root := l.aggregateChildren.map fun declared =>
      constructed declared ((l.hydrateChildren db scope r).map some) }

/-- Load the one aggregate whose row meets a condition and is in the scope. -/
def findOne (cond : RootRow → Bool) : Except WriteError (Entity α) :=
  if l.schema.fields = [] then
    .error (.failed ("AggregateLoader[" ++ l.name ++ "]: schema declares no columns — " ++
      l.goType ++ " exposes no persisted fields. Declare them with TableSchema.Field(...)"))
  else
    match ((db.roots l.schema.table).rows.filter fun r =>
      cond r && scopeGate scope l.schema.toSchemaDecl r).take 2 with
    | [] => .error (.notFound l.name "criteria" "")
    | [r] => l.hydrate db scope r
    | _ => .error (.failed ("AggregateLoader[" ++ l.name ++ "].FindOne: criteria matched more " ++
        "than one row — use FindAll or a more specific criterion"))

variable {l}

theorem findOne_ok {db : Database} {scope : Scope} {cond : RootRow → Bool} {src : Entity α}
    (h : l.findOne db scope cond = .ok src) :
    ∃ r ∈ (db.roots l.schema.table).rows, cond r ∧ scopeGate scope l.schema r ∧
      src.id = r.id ∧ src.values = l.loadedValues db r ∧
      src.root = l.aggregateChildren.map fun declared =>
        constructed declared ((l.hydrateChildren db scope r).map some) := by
  rw [findOne] at h
  split_ifs at h
  split at h
  · cases h
  · rename_i r hr
    have hmem : r ∈ (db.roots l.schema.table).rows.filter fun r =>
        cond r && scopeGate scope l.schema r :=
      mem_of_mem_take (hr ▸ mem_singleton_self r)
    obtain ⟨hrow, hgate⟩ := mem_filter.1 hmem
    rw [hydrate, Except.bind_ok] at h
    obtain ⟨_, -, h⟩ := h
    rw [Except.pure_ok] at h
    subst h
    obtain ⟨hcond, hgate⟩ := Bool.and_eq_true_iff.1 hgate
    exact ⟨r, hrow, hcond, hgate, rfl, rfl, rfl⟩
  · cases h

theorem typeName_mem_of_findOne {db : Database} {scope : Scope} {cond : RootRow → Bool}
    {src : Entity α} (h : l.findOne db scope cond = .ok src)
    (hscan : ScansChildren α l.schema.children) {ar : AggregateRoot α} (har : src.root = some ar)
    {c : ChildSchema} (hc : c ∈ l.schema.children) {r : ChildRow}
    (hr : r ∈ (db.children c.table).rows) (hparent : r.parentID = src.id)
    (hscope : childScopeFilter scope c r) : c.typeName ∈ ar.aggregates.keys := by
  obtain ⟨row, -, -, -, hid, -, hroot⟩ := findOne_ok h
  rw [har] at hroot
  obtain ⟨declared, -, rfl⟩ := Option.map_eq_some_iff.1 hroot.symm
  by_contra hkey
  have hnil : (constructed declared ((l.hydrateChildren db scope row).map some)).entries
      c.typeName = ([] : List (AggregateItemEntry α)) := by
    rw [AggregateRoot.entries, (AssocMap.get_eq_none_iff ..).2 hkey]
    rfl
  rw [constructed, entries_aggregateConstructor, append_eq_nil_iff, map_eq_nil_iff,
    filter_eq_nil_iff] at hnil
  refine hnil.2 (scan c r) ?_ (by simpa using (hscan c hc r).1)
  have hmem : r ∈ scopedRows db scope row.id c := by
    refine mem_filter.2 ⟨hr, ?_⟩
    simp [← hid, hparent, hscope]
  simp only [filterMap_map, Function.id_comp, mem_filterMap]
  refine ⟨scan c r, mem_append_left _ ?_, rfl⟩
  exact mem_flatMap.2 ⟨c, hc, mem_map_of_mem hmem⟩

end AggregateLoader

end

end Omnicore.Read
