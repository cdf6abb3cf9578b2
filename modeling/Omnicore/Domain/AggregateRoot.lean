import Omnicore.Lib.AssocMap

/-!
# Aggregate roots and the change tracking of their children

An aggregate root tracks its children in one list per child type.  Every entry keeps the status
the child was loaded or created with next to its current one, and the pair decides the persistence
operation of the child (`operationOf`).  The mutating primitives never drop an entry: a removed
child stays in its list with status `removed`, so a later primitive can find it again.

Children are found by *business identity*, a relation only the domain type can decide.  The class
`AggregateValueObject` collects what the tracker asks of a child type, `LawfulIdentity` what the
contract of that type promises.

## Main definitions

* `operationOf` : the persistence operation of an (original, current) status pair.
* `AggregateRoot.addAggregateChild`, `changeAggregateChild`, `removeAggregateChild`,
  `replaceAggregateChildrenOf`, `clearAggregateItemsOfType` : the public primitives.
* `AggregateRoot.assignAggregateItemID` : the id write-back of the persister.
-/

namespace Omnicore.Domain

/-- The tracking status of a child. -/
inductive AggregateItemStatus where
  | unknown
  | constructor
  | added
  | changed
  | removed
  deriving DecidableEq, Repr

/-- The persistence operation a child resolves to. -/
inductive AggregateItemOp where
  | noop
  | insert
  | update
  | delete
  deriving DecidableEq, Repr

/-- The persistence operation of an (original, current) status pair. -/
def operationOf (original current : AggregateItemStatus) : AggregateItemOp :=
  if original ≠ .constructor then
    if current ≠ .removed then .insert
    else .noop -- added, then removed: never persisted
  else
    match current with
    | .added | .changed => .update
    | .removed => .delete
    | _ => .noop

/-- What the change tracker asks of a child type. -/
class AggregateValueObject (α : Type) where
  /-- The Go type name of a value, the key of its list. -/
  classNameOf : α → String
  /-- The declared collection segment, used in notification paths and documents. -/
  collectionName : α → String
  /-- The row id the value carries, empty for a value not persisted yet. -/
  getID : α → String
  /-- A copy carrying the given row id, `none` when the value is not a plain struct. -/
  withItemID : α → String → Option α
  /-- Whether two values are the same child for the owning aggregate. -/
  isSameBusinessIdentity : α → α → Bool

export AggregateValueObject (classNameOf collectionName getID withItemID isSameBusinessIdentity)

/-- The contract of a child type: business identity is an equivalence, and the managed carrier
(the row id) takes no part in it. -/
class LawfulIdentity (α : Type) [AggregateValueObject α] : Prop where
  same_refl : ∀ x : α, isSameBusinessIdentity x x = true
  same_symm : ∀ {x y : α}, isSameBusinessIdentity x y = true → isSameBusinessIdentity y x = true
  same_trans : ∀ {x y z : α}, isSameBusinessIdentity x y = true →
    isSameBusinessIdentity y z = true → isSameBusinessIdentity x z = true
  withItemID_same : ∀ {x y : α} {id : String}, withItemID x id = some y →
    isSameBusinessIdentity y x = true
  withItemID_getID : ∀ {x y : α} {id : String}, withItemID x id = some y → getID y = id

/-- The contract of the managed carrier: every child can carry an id, which changes nothing of its
type. -/
class LawfulCarrier (α : Type) [AggregateValueObject α] : Prop extends LawfulIdentity α where
  withItemID_isSome : ∀ (x : α) (id : String), (withItemID x id).isSome
  withItemID_className : ∀ {x y : α} {id : String}, withItemID x id = some y →
    classNameOf y = classNameOf x

export LawfulIdentity (same_refl same_symm same_trans withItemID_same withItemID_getID)

/-- The notifications the primitives raise. -/
inductive Notification where
  | entityAlreadyAdded
  | entityDoesNotExist
  | invalidAggregateChild
  deriving DecidableEq, Repr

/-- A notification with its field path (the collection segment of the child) and the echoed
value, both absent where the primitive leaves them unset. -/
structure NotificationMessage where
  path : Option String := none
  notification : Notification
  fieldValue : Option String := none
  deriving DecidableEq, Repr

/-- One tracked child. -/
structure AggregateItemEntry (α : Type) where
  item : α
  originalStatus : AggregateItemStatus
  currentStatus : AggregateItemStatus
  deriving DecidableEq, Repr

/-- The persistence operation of a tracked child. -/
def AggregateItemEntry.operation {α : Type} (e : AggregateItemEntry α) : AggregateItemOp :=
  operationOf e.originalStatus e.currentStatus

/-- An aggregate root: the child types it declares, the tracked children by type name, and the
notifications raised so far. -/
structure AggregateRoot (α : Type) where
  aggregateChildren : List String
  aggregates : AssocMap String (List (AggregateItemEntry α)) := []
  notifications : List NotificationMessage := []
  deriving DecidableEq, Repr

variable {α : Type} [AggregateValueObject α]

/-! ### Edits of one tracked list -/

/-- A child re-sent for the tracked `entry`: the incoming values under the tracked id. -/
def reactivated (entry item : α) : α :=
  if getID entry ≠ "" then (withItemID item (getID entry)).getD item else item

/-- The loop of `addAggregateItem`: the first entry of the item's identity is re-activated in
place, or refuses the item when it is already active; without one the item is appended. -/
def addToList (item : α) :
    List (AggregateItemEntry α) → Except Notification (List (AggregateItemEntry α))
  | [] => .ok [⟨item, .added, .added⟩]
  | e :: list =>
    if isSameBusinessIdentity e.item item then
      match e.currentStatus with
      | .added | .constructor => .error .entityAlreadyAdded
      | .removed | .changed =>
        .ok ({ e with item := reactivated e.item item, currentStatus := .added } :: list)
      | .unknown => (e :: ·) <$> addToList item list
    else (e :: ·) <$> addToList item list

/-- The scan of `changeAggregateItem`: the index of the entry addressed by `original`, and of the
first active entry other than it that holds the identity of `replacement`. -/
def changeScan (original replacement : α) :
    List (AggregateItemEntry α) → ℕ → Option ℕ → Option ℕ → Option ℕ × Option ℕ
  | [], _, target, collision => (target, collision)
  | e :: list, i, target, collision =>
    if target.isNone && isSameBusinessIdentity e.item original then
      changeScan original replacement list (i + 1) (some i) collision
    else if collision.isNone && e.currentStatus ≠ .removed &&
        isSameBusinessIdentity e.item replacement then
      changeScan original replacement list (i + 1) target (some i)
    else changeScan original replacement list (i + 1) target collision

/-- The body of `changeAggregateItem` on the list of the original's type. -/
def changeInList (original replacement : α) (list : List (AggregateItemEntry α)) :
    Except Notification (List (AggregateItemEntry α)) :=
  match changeScan original replacement list 0 none none with
  | (none, _) => .error .entityDoesNotExist
  | (some _, some _) => .error .entityAlreadyAdded
  | (some target, none) =>
    .ok (list.modify target fun e => { e with item := replacement, currentStatus := .changed })

/-- The loop of `removeAggregateItem`: the first entry of the item's identity that is not
removed yet. -/
def removeFromList (item : α) :
    List (AggregateItemEntry α) → Except Notification (List (AggregateItemEntry α))
  | [] => .error .entityDoesNotExist
  | e :: list =>
    if isSameBusinessIdentity e.item item && e.currentStatus ≠ .removed then
      .ok ({ e with currentStatus := .removed } :: list)
    else (e :: ·) <$> removeFromList item list

/-- The loop of `AssignAggregateItemID`: the first entry of the item's identity, whatever its
status, takes the stamped copy. -/
def assignInList (item stamped : α) : List (AggregateItemEntry α) → List (AggregateItemEntry α)
  | [] => []
  | e :: list =>
    if isSameBusinessIdentity e.item item then { e with item := stamped } :: list
    else e :: assignInList item stamped list

/-! ### The primitives of the root -/

namespace AggregateRoot

variable (ar : AggregateRoot α) (item : Option α)

variable (typeName : String)

/-- The tracked entries of a child type. -/
def entries : List (AggregateItemEntry α) := (ar.aggregates.get typeName).getD []

/-- Replace the tracked entries of a child type. -/
def setEntries (list : List (AggregateItemEntry α)) : AggregateRoot α :=
  { ar with aggregates := ar.aggregates.set typeName list }

/-- Raise a notification. -/
def addNotificationMessage (msg : NotificationMessage) : AggregateRoot α :=
  { ar with notifications := ar.notifications ++ [msg] }

variable (key : String)

/-- Store the outcome of an edit of the list `key`, or raise the notification it ended with on the
collection path of `item`. -/
def store (item : α) :
    Except Notification (List (AggregateItemEntry α)) → AggregateRoot α
  | .ok list => ar.setEntries key list
  | .error n => ar.addNotificationMessage { path := collectionName item, notification := n }

/-- The load path: trusted items enter with status `constructor`, a nil item only raises a
notification. -/
def aggregateConstructor (items : List (Option α)) : AggregateRoot α :=
  items.foldl (fun ar item => match item with
    | none => ar.addNotificationMessage { notification := .entityDoesNotExist }
    | some x =>
      let key := classNameOf x
      ar.setEntries key (ar.entries key ++ [⟨x, .constructor, .constructor⟩])) ar

/-- Add a child, unchecked against the declared types. -/
def addAggregateItem (item : α) : AggregateRoot α :=
  let key := classNameOf item
  ar.store key item (addToList item (ar.entries key))

/-- Replace a child, unchecked against the declared types. -/
def changeAggregateItem (original replacement : α) : AggregateRoot α :=
  let key := classNameOf original
  ar.store key original (changeInList original replacement (ar.entries key))

/-- Mark a child removed, unchecked against the declared types. -/
def removeAggregateItem (item : α) : AggregateRoot α :=
  let key := classNameOf item
  ar.store key item (removeFromList item (ar.entries key))

/-- Mark every tracked child of a type removed. -/
def clearAggregateItemsOfType : AggregateRoot α :=
  ar.setEntries typeName ((ar.entries typeName).map fun e => { e with currentStatus := .removed })

/-- The type guard of the public primitives: a nil item is never allowed. -/
def isAllowedChild : Option α → Bool
  | none => false
  | some x => ar.aggregateChildren.contains (classNameOf x)

/-- The notification of a child that fails the type guard. -/
def rejectChild : AggregateRoot α :=
  ar.addNotificationMessage
    { path := item.map collectionName
      notification := .invalidAggregateChild
      fieldValue := item.map classNameOf }

/-- Add a child of a declared type. -/
def addAggregateChild : AggregateRoot α :=
  match item with
  | some x => if ar.isAllowedChild item then ar.addAggregateItem x else ar.rejectChild item
  | none => ar.rejectChild item

/-- Replace a child, both values being of declared types. -/
def changeAggregateChild (original replacement : Option α) : AggregateRoot α :=
  match original, replacement with
  | some x, some y =>
    if !ar.isAllowedChild original then ar.rejectChild original
    else if !ar.isAllowedChild replacement then ar.rejectChild replacement
    else ar.changeAggregateItem x y
  | some _, none =>
    if !ar.isAllowedChild original then ar.rejectChild original else ar.rejectChild replacement
  | none, _ => ar.rejectChild original

/-- Mark a child of a declared type removed. -/
def removeAggregateChild : AggregateRoot α :=
  match item with
  | some x => if ar.isAllowedChild item then ar.removeAggregateItem x else ar.rejectChild item
  | none => ar.rejectChild item

/-- Substitute the whole collection of a type: clear it, then add the items one by one. -/
def replaceAggregateChildrenOf (items : List α) : AggregateRoot α :=
  items.foldl (fun ar x => ar.addAggregateChild (some x)) (ar.clearAggregateItemsOfType typeName)

/-- The id write-back of the persister: the stamped copy of `item` takes the place of the first
tracked entry of its identity. -/
def assignAggregateItemID (item : α) (id : String) : AggregateRoot α :=
  match withItemID item id with
  | none => ar
  | some stamped =>
    let key := classNameOf item
    ar.setEntries key (assignInList item stamped (ar.entries key))

/-! ### Reading an edit back -/

omit [AggregateValueObject α] in
@[simp] theorem entries_addNotificationMessage (msg : NotificationMessage) (k : String) :
    (ar.addNotificationMessage msg).entries k = ar.entries k := rfl

variable (k : String)

omit [AggregateValueObject α] in
theorem entries_setEntries (list : List (AggregateItemEntry α)) :
    (ar.setEntries key list).entries k = if key = k then list else ar.entries k := by
  simp only [entries, setEntries, AssocMap.get_set]
  split_ifs <;> rfl

theorem entries_store (item : α) (r : Except Notification (List (AggregateItemEntry α))) :
    (ar.store key item r).entries k =
      if key = k then r.toOption.getD (ar.entries k) else ar.entries k := by
  cases r with
  | ok list => exact entries_setEntries ar key k list
  | error n => simp [store, Except.toOption]

omit [AggregateValueObject α] in
theorem entries_clearAggregateItemsOfType :
    (ar.clearAggregateItemsOfType typeName).entries k = if typeName = k then
      (ar.entries k).map fun e => { e with currentStatus := .removed } else ar.entries k := by
  rw [clearAggregateItemsOfType, entries_setEntries]
  split_ifs with h
  · rw [h]
  · rfl

end AggregateRoot

end Omnicore.Domain
