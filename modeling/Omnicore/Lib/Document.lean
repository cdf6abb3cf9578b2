import Mathlib.Data.Int.Notation
import Omnicore.Lib.AssocMap

/-!
# Documents

The values a document store holds: scalars, arrays and nested documents.  A document is a finite
map from field names to values, and a field that is absent (*missing*) differs from one that holds
`null`.

## Main definitions

* `Value`, `Doc` : the values, with decidable equality.
* `Value.compare` : the total preorder of a document store, type first, then value; a missing field
  is below everything.
-/

/-- A value of a document store. -/
inductive Value where
  | null
  | bool (b : Bool)
  | int (n : ℤ)
  | str (s : String)
  /-- An instant, in milliseconds. -/
  | time (ms : ℕ)
  | arr (xs : List Value)
  | doc (fields : List (String × Value))
  deriving Repr

/-- A document. -/
abbrev Doc := AssocMap String Value

namespace Value

mutual

/-- Equality of values is decidable. -/
def decEq : (a b : Value) → Decidable (a = b)
  | .null, .null => .isTrue rfl
  | .bool a, .bool b => decidable_of_iff (a = b) (by simp)
  | .int a, .int b => decidable_of_iff (a = b) (by simp)
  | .str a, .str b => decidable_of_iff (a = b) (by simp)
  | .time a, .time b => decidable_of_iff (a = b) (by simp)
  | .arr xs, .arr ys =>
    match decEqList xs ys with
    | .isTrue h => .isTrue (h ▸ rfl)
    | .isFalse h => .isFalse fun e => h (Value.arr.inj e)
  | .doc xs, .doc ys =>
    match decEqFields xs ys with
    | .isTrue h => .isTrue (h ▸ rfl)
    | .isFalse h => .isFalse fun e => h (Value.doc.inj e)
  | .null, .bool _ | .null, .int _ | .null, .str _ | .null, .time _ | .null, .arr _
  | .null, .doc _ | .bool _, .null | .bool _, .int _ | .bool _, .str _ | .bool _, .time _
  | .bool _, .arr _ | .bool _, .doc _ | .int _, .null | .int _, .bool _ | .int _, .str _
  | .int _, .time _ | .int _, .arr _ | .int _, .doc _ | .str _, .null | .str _, .bool _
  | .str _, .int _ | .str _, .time _ | .str _, .arr _ | .str _, .doc _ | .time _, .null
  | .time _, .bool _ | .time _, .int _ | .time _, .str _ | .time _, .arr _ | .time _, .doc _
  | .arr _, .null | .arr _, .bool _ | .arr _, .int _ | .arr _, .str _ | .arr _, .time _
  | .arr _, .doc _ | .doc _, .null | .doc _, .bool _ | .doc _, .int _ | .doc _, .str _
  | .doc _, .time _ | .doc _, .arr _ => .isFalse nofun

/-- Equality of arrays is decidable. -/
def decEqList : (xs ys : List Value) → Decidable (xs = ys)
  | [], [] => .isTrue rfl
  | [], _ :: _ => .isFalse nofun
  | _ :: _, [] => .isFalse nofun
  | x :: xs, y :: ys =>
    match decEq x y, decEqList xs ys with
    | .isTrue h, .isTrue h' => .isTrue (h ▸ h' ▸ rfl)
    | .isFalse h, _ => .isFalse fun e => h (List.cons.inj e).1
    | _, .isFalse h => .isFalse fun e => h (List.cons.inj e).2

/-- Equality of the fields of a document is decidable. -/
def decEqFields : (xs ys : List (String × Value)) → Decidable (xs = ys)
  | [], [] => .isTrue rfl
  | [], _ :: _ => .isFalse nofun
  | _ :: _, [] => .isFalse nofun
  | (k, x) :: xs, (l, y) :: ys =>
    match decEq x y, decEqFields xs ys with
    | .isTrue h, .isTrue h' =>
      if hk : k = l then .isTrue (by rw [h, h', hk])
      else .isFalse fun e => hk (Prod.mk.inj (List.cons.inj e).1).1
    | .isFalse h, _ => .isFalse fun e => h (Prod.mk.inj (List.cons.inj e).1).2
    | _, .isFalse h => .isFalse fun e => h (List.cons.inj e).2

end

instance : DecidableEq Value := decEq

/-- The place of a value's type in the order of a document store. -/
def rank : Value → ℕ
  | .null => 1
  | .int _ => 2
  | .str _ => 3
  | .doc _ => 4
  | .arr _ => 5
  | .bool _ => 6
  | .time _ => 7

mutual

/-- Values compare by type, then by value. -/
def compare : Value → Value → Ordering
  | .bool a, .bool b => Ord.compare a b
  | .int a, .int b => Ord.compare a b
  | .str a, .str b => Ord.compare a b
  | .time a, .time b => Ord.compare a b
  | .arr xs, .arr ys => compareList xs ys
  | .doc xs, .doc ys => compareFields xs ys
  | a, b => Ord.compare a.rank b.rank

/-- Arrays compare element by element. -/
def compareList : List Value → List Value → Ordering
  | [], [] => .eq
  | [], _ :: _ => .lt
  | _ :: _, [] => .gt
  | x :: xs, y :: ys => (compare x y).then (compareList xs ys)

/-- Documents compare field by field: by the type of the value, the name, then the value. -/
def compareFields : List (String × Value) → List (String × Value) → Ordering
  | [], [] => .eq
  | [], _ :: _ => .lt
  | _ :: _, [] => .gt
  | (k, x) :: xs, (l, y) :: ys =>
    (Ord.compare x.rank y.rank).then <| (Ord.compare k l).then <|
      (compare x y).then (compareFields xs ys)

end

/-- `a` is below `b`; a missing value is below every other. -/
def isLT : Option Value → Option Value → Bool
  | none, none => false
  | none, some _ => true
  | some _, none => false
  | some a, some b => (compare a b).isLT

/-- The name a document store gives to the type of a value. -/
def typeName : Option Value → String
  | none => "missing"
  | some .null => "null"
  | some (.bool _) => "bool"
  | some (.int _) => "long"
  | some (.str _) => "string"
  | some (.time _) => "date"
  | some (.arr _) => "array"
  | some (.doc _) => "object"

/-- Missing, `null`, `false` and zero count as false in a condition. -/
def truthy : Option Value → Bool
  | none | some .null => false
  | some (.bool b) => b
  | some (.int n) => n ≠ 0
  | some _ => true

/-- The value a field path selects: a field of a document, or that field of each document of an
array. -/
def path : Value → String → Option Value
  | .doc d, k => AssocMap.get d k
  | .arr xs, k => some (.arr (xs.filterMap fun x => match x with
    | .doc d => AssocMap.get d k
    | _ => none))
  | _, _ => none

/-- Order by some fields, each ascending or descending, the first that tells the two apart. -/
def leBy : List (String × Bool) → Value → Value → Bool
  | [], _, _ => true
  | (k, desc) :: keys, a, b =>
    if isLT (a.path k) (b.path k) then !desc
    else if isLT (b.path k) (a.path k) then desc
    else leBy keys a b

@[simp] theorem isLT_int (a b : ℤ) : isLT (some (.int a)) (some (.int b)) = decide (a < b) := by
  simp [isLT, compare, Ord.compare, compareOfLessAndEq]
  split_ifs <;> simp_all

@[simp] theorem path_doc (d : Doc) (k : String) : path (.doc d) k = AssocMap.get d k := rfl

end Value
