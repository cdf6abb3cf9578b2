import Mathlib.Data.String.Basic

/-!
# Blue-green slots of a view

A view lives in one of three physical collections: the bare `<view>`, or one of the two slots
`<view>__0` and `<view>__1` a rebuild alternates between.  The row of the view in the registry
table names the collection that serves reads and, while a rebuild is in flight, the slot being
built.  Every pod reads that row through its own pointer cache (the view resolver).

* `inactiveSlot` : the slot a rebuild builds, relative to the active collection.
* `refresh`, `active`, `shadow` : the resolver's cache and its lookups.
* `beginSlotRebuild`, `flipSlot`, `abortSlotRebuild`, `beginRebuild`, `endRebuild` : the UPDATE
  statements on the registry row; on a missing row they affect nothing.
-/

namespace Omnicore.Query

/-- The status column of a registry row. -/
inductive ViewRegistryStatus where
  | done
  | processing
  deriving DecidableEq, Repr

/-- One row of the registry table; a NULL pointer column is `none`. -/
structure ViewRegistryRow where
  version : ℕ
  rebuildHash : String
  artifactHash : String
  combinedHash : String
  previousVersion : Option ℕ := none
  previousCombinedHash : Option String := none
  status : ViewRegistryStatus := .done
  /-- The collection serving reads, NULL for the bare view collection. -/
  activeCollection : Option String := none
  /-- The slot being built, NULL between rebuilds. -/
  shadowCollection : Option String := none
  deriving DecidableEq, Repr

/-- The version and hashes computed from the declared view. -/
structure ViewSpec where
  version : ℕ
  rebuildHash : String
  artifactHash : String
  combinedHash : String
  deriving DecidableEq, Repr

def slotSuffix0 : String := "__0"

def slotSuffix1 : String := "__1"

/-- The slot that is not the active one; from the bare collection the first target is `__0`. -/
def inactiveSlot (viewName active : String) : String :=
  if active = viewName ++ slotSuffix0 then viewName ++ slotSuffix1
  else if active = viewName ++ slotSuffix1 then viewName ++ slotSuffix0
  else viewName ++ slotSuffix0

/-! ### The resolver -/

/-- The cached slot state of a view; the empty string stands for NULL. -/
structure ViewPointer where
  active : String
  shadow : String
  deriving DecidableEq, Repr

/-- The cache entry of the view after a refresh: absent while the view has no registry row. -/
def refresh (registry : Option ViewRegistryRow) : Option ViewPointer :=
  registry.map fun r => ⟨r.activeCollection.getD "", r.shadowCollection.getD ""⟩

/-- The collection serving reads according to the cache. -/
def active (cache : Option ViewPointer) (name : String) : String :=
  match cache with
  | some p => if p.active ≠ "" then p.active else name
  | none => name

/-- The slot a rebuild builds according to the cache. -/
def shadow (cache : Option ViewPointer) (name : String) : String :=
  inactiveSlot name (active cache name)

/-! ### The registry statements -/

/-- Create the row of a fresh view. -/
def initViewRegistry (spec : ViewSpec) : ViewRegistryRow where
  version := spec.version
  rebuildHash := spec.rebuildHash
  artifactHash := spec.artifactHash
  combinedHash := spec.combinedHash

/-- Mark the rebuild as running. -/
def beginRebuild (registry : Option ViewRegistryRow) : Option ViewRegistryRow :=
  registry.map fun r => { r with status := .processing }

/-- Record the slot a rebuild is building. -/
def beginSlotRebuild (registry : Option ViewRegistryRow) (shadowName : String) :
    Option ViewRegistryRow :=
  registry.map fun r => { r with shadowCollection := some shadowName }

/-- Promote the recorded slot, guarded by `shadow_collection IS NOT NULL`. -/
def flipSlot (registry : Option ViewRegistryRow) : Option ViewRegistryRow :=
  registry.map fun r =>
    if r.shadowCollection.isSome then
      { r with activeCollection := r.shadowCollection, shadowCollection := none }
    else r

/-- Clear the recorded slot. -/
def abortSlotRebuild (registry : Option ViewRegistryRow) : Option ViewRegistryRow :=
  registry.map fun r => { r with shadowCollection := none }

/-- Mark the rebuild as done and store the version and hashes it built. -/
def endRebuild (registry : Option ViewRegistryRow) (spec : ViewSpec) : Option ViewRegistryRow :=
  registry.map fun r =>
    { r with
      previousVersion := some r.version
      previousCombinedHash := some r.combinedHash
      version := spec.version
      rebuildHash := spec.rebuildHash
      artifactHash := spec.artifactHash
      combinedHash := spec.combinedHash
      status := .done }

/-! ### What the statements do to the pointers -/

/-- The collection the registry names as serving reads. -/
def activeCollectionOf (viewName : String) (registry : Option ViewRegistryRow) : String :=
  active (refresh registry) viewName

variable (viewName : String) (registry : Option ViewRegistryRow)

@[simp] theorem activeCollectionOf_beginRebuild :
    activeCollectionOf viewName (beginRebuild registry) = activeCollectionOf viewName registry := by
  cases registry <;> rfl

@[simp] theorem activeCollectionOf_beginSlotRebuild (shadowName : String) :
    activeCollectionOf viewName (beginSlotRebuild registry shadowName) =
      activeCollectionOf viewName registry := by
  cases registry <;> rfl

@[simp] theorem activeCollectionOf_abortSlotRebuild :
    activeCollectionOf viewName (abortSlotRebuild registry) =
      activeCollectionOf viewName registry := by
  cases registry <;> rfl

@[simp] theorem activeCollectionOf_endRebuild (spec : ViewSpec) :
    activeCollectionOf viewName (endRebuild registry spec) =
      activeCollectionOf viewName registry := by
  cases registry <;> rfl

@[simp] theorem activeCollectionOf_init (spec : ViewSpec) :
    activeCollectionOf viewName (some (initViewRegistry spec)) = viewName := rfl

end Omnicore.Query
