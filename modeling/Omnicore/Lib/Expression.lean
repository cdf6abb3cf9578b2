import Omnicore.Lib.Document
import Omnicore.Lib.Except

/-!
# Aggregation expressions

The expressions of an aggregation language that an update pipeline uses, over the fields of the
document being updated.  A field that is absent evaluates to no value, and an ill-typed operand
makes the evaluation fail.

## Main results

* `Expr.eval_filter`, `Expr.eval_map` : a filter or a map whose body evaluates on every element is
  the filter or map of the body's values.
-/

/-- An aggregation expression. -/
inductive Expr where
  | lit (v : Value)
  /-- A field of the document. -/
  | field (name : String)
  /-- A variable bound by an enclosing filter or map. -/
  | var (name : String)
  /-- A field of the document a variable holds. -/
  | varPath (name path : String)
  /-- The absence of a value. -/
  | remove
  /-- The second operand where the first is missing or null. -/
  | ifNull (e default : Expr)
  | cond (c t e : Expr)
  | lt (a b : Expr)
  | gt (a b : Expr)
  | gte (a b : Expr)
  | eq (a b : Expr)
  | or (a b : Expr)
  | not (a : Expr)
  | filter (input : Expr) (var : String) (c : Expr)
  | map (input : Expr) (var : String) (body : Expr)
  | concatArrays (a b : Expr)
  /-- The fields of both documents, the second one winning. -/
  | mergeObjects (a b : Expr)
  | size (a : Expr)
  | type (a : Expr)
  | arrayElemAt (a : Expr) (i : ℕ)
  /-- The elements ordered by some of their fields, each ascending or descending. -/
  | sortArray (a : Expr) (keys : List (String × Bool))
  deriving Repr

namespace Expr

open AssocMap Except Value

/-- The value of an expression on a document, `none` when it is missing. -/
def eval (d : Doc) : Expr → Doc → Except String (Option Value)
  | lit v, _ => .ok (some v)
  | field k, _ => .ok (get d k)
  | var x, vars => .ok (get vars x)
  | varPath x k, vars => .ok ((get vars x).bind (·.path k))
  | remove, _ => .ok none
  | ifNull e default, vars => do
    match ← eval d e vars with
    | none | some .null => eval d default vars
    | some v => return some v
  | cond c t e, vars => do
    if truthy (← eval d c vars) then eval d t vars else eval d e vars
  | lt a b, vars => do
    let x ← eval d a vars
    let y ← eval d b vars
    return some (.bool (isLT x y))
  | gt a b, vars => do
    let x ← eval d a vars
    let y ← eval d b vars
    return some (.bool (isLT y x))
  | gte a b, vars => do
    let x ← eval d a vars
    let y ← eval d b vars
    return some (.bool !(isLT x y))
  | eq a b, vars => do
    let x ← eval d a vars
    let y ← eval d b vars
    return some (.bool (x = y))
  | or a b, vars => do
    let x ← eval d a vars
    if truthy x then return some (.bool true)
    let y ← eval d b vars
    return some (.bool (truthy y))
  | not a, vars => do
    let x ← eval d a vars
    return some (.bool !(truthy x))
  | filter input x c, vars => do
    match ← eval d input vars with
    | none | some .null => return some .null
    | some (.arr xs) =>
      let ys ← filterList (fun v => truthy <$> eval d c (vars.set x v)) xs
      return some (.arr ys)
    | some _ => throw "input to $filter must be an array"
  | map input x body, vars => do
    match ← eval d input vars with
    | none | some .null => return some .null
    | some (.arr xs) =>
      let ys ← mapList (fun v => (·.getD .null) <$> eval d body (vars.set x v)) xs
      return some (.arr ys)
    | some _ => throw "input to $map must be an array"
  | concatArrays a b, vars => do
    match ← eval d a vars, ← eval d b vars with
    | some (.arr xs), some (.arr ys) => return some (.arr (xs ++ ys))
    | none, _ | some .null, _ | _, none | _, some .null => return some .null
    | _, _ => throw "$concatArrays only supports arrays"
  | mergeObjects a b, vars => do
    match ← eval d a vars, ← eval d b vars with
    | some (.doc xs), some (.doc ys) => return some (.doc (setAll xs ys))
    | some (.doc xs), none | some (.doc xs), some .null => return some (.doc xs)
    | none, some (.doc ys) | some .null, some (.doc ys) => return some (.doc ys)
    | none, none | none, some .null | some .null, none | some .null, some .null =>
      return some (.doc [])
    | _, _ => throw "$mergeObjects requires object inputs"
  | size a, vars => do
    match ← eval d a vars with
    | some (.arr xs) => return some (.int xs.length)
    | _ => throw "The argument to $size must be an array"
  | type a, vars => do
    let x ← eval d a vars
    return some (.str (typeName x))
  | arrayElemAt a i, vars => do
    match ← eval d a vars with
    | none | some .null => return some .null
    | some (.arr xs) => return xs[i]?
    | some _ => throw "$arrayElemAt's first argument must be an array"
  | sortArray a keys, vars => do
    match ← eval d a vars with
    | none | some .null => return some .null
    | some (.arr xs) => return some (.arr (xs.mergeSort (leBy keys)))
    | some _ => throw "The input argument to $sortArray must be an array"

variable {d vars : Doc} {a b c t e input body default : Expr} {v : String}

@[simp] theorem eval_lit (x : Value) : eval d (lit x) vars = .ok (some x) := rfl

@[simp] theorem eval_field (k : String) : eval d (field k) vars = .ok (get d k) := rfl

@[simp] theorem eval_var (x : String) : eval d (var x) vars = .ok (get vars x) := rfl

@[simp] theorem eval_varPath (x k : String) :
    eval d (varPath x k) vars = .ok ((get vars x).bind (·.path k)) := rfl

theorem eval_ifNull_none (h : eval d e vars = .ok none) :
    eval d (ifNull e default) vars = eval d default vars := by
  change (eval d e vars >>= _) = _
  rw [h]
  rfl

theorem eval_ifNull_null (h : eval d e vars = .ok (some .null)) :
    eval d (ifNull e default) vars = eval d default vars := by
  change (eval d e vars >>= _) = _
  rw [h]
  rfl

theorem eval_ifNull_some {x : Value} (h : eval d e vars = .ok (some x)) (hx : x ≠ .null) :
    eval d (ifNull e default) vars = .ok (some x) := by
  change (eval d e vars >>= _) = _
  rw [h]
  cases x with
  | null => exact absurd rfl hx
  | _ => rfl

theorem eval_cond {p : Bool} (h : eval d c vars = .ok (some (.bool p))) :
    eval d (cond c t e) vars = if p then eval d t vars else eval d e vars := by
  change (eval d c vars >>= _) = _
  rw [h]
  rfl

variable {xs : List Value} {x y : Option Value}

section

variable (ha : eval d a vars = .ok x) (hb : eval d b vars = .ok y)
include ha hb

/-- An operator of two operands, both of which evaluate. -/
theorem bind_bind_ok {f : Option Value → Option Value → Option Value} :
    (eval d a vars >>= fun x => eval d b vars >>= fun y => pure (f x y)) = .ok (f x y) := by
  rw [ha, hb]
  rfl

theorem eval_lt : eval d (lt a b) vars = .ok (some (.bool (isLT x y))) := bind_bind_ok ha hb

theorem eval_gt : eval d (gt a b) vars = .ok (some (.bool (isLT y x))) := bind_bind_ok ha hb

theorem eval_eq : eval d (eq a b) vars = .ok (some (.bool (x = y))) := bind_bind_ok ha hb

end

theorem eval_or {p q : Bool} (ha : eval d a vars = .ok (some (.bool p)))
    (hb : eval d b vars = .ok (some (.bool q))) :
    eval d (or a b) vars = .ok (some (.bool (p || q))) := by
  change (eval d a vars >>= _) = _
  rw [ha]
  cases p with
  | true => rfl
  | false =>
    rw [hb]
    rfl

theorem eval_not {p : Bool} (ha : eval d a vars = .ok (some (.bool p))) :
    eval d (not a) vars = .ok (some (.bool !p)) := by
  change (eval d a vars >>= _) = _
  rw [ha]
  rfl

section

variable (hin : eval d input vars = .ok (some (.arr xs)))
include hin

/-- A filter whose condition evaluates on every element. -/
theorem eval_filter {p : Value → Bool}
    (hc : ∀ x ∈ xs, eval d c (set vars v x) = .ok (some (.bool (p x)))) :
    eval d (filter input v c) vars = .ok (some (.arr (xs.filter p))) := by
  have hfilter : filterList (fun x => truthy <$> eval d c (set vars v x)) xs = .ok (xs.filter p) :=
    filterList_ok fun x hx => by rw [hc x hx]; rfl
  change (eval d input vars >>= _) = _
  rw [hin]
  exact congrArg (· >>= fun ys => ok (some (arr ys))) hfilter

/-- A map whose body evaluates on every element. -/
theorem eval_map {f : Value → Value}
    (hb : ∀ x ∈ xs, eval d body (set vars v x) = .ok (some (f x))) :
    eval d (map input v body) vars = .ok (some (.arr (xs.map f))) := by
  have hmap : mapList (fun x => (·.getD .null) <$> eval d body (set vars v x)) xs =
      .ok (xs.map f) :=
    mapList_ok fun x hx => by rw [hb x hx]; rfl
  change (eval d input vars >>= _) = _
  rw [hin]
  exact congrArg (· >>= fun ys => ok (some (arr ys))) hmap

/-- The elements of a map that evaluates. -/
theorem forall₂_of_eval_map {r : Option Value} (h : eval d (map input v body) vars = .ok r) :
    ∃ ys, r = some (.arr ys) ∧ List.Forall₂
      (fun x y => ∃ w, eval d body (set vars v x) = .ok w ∧ y = w.getD .null) xs ys := by
  obtain ⟨u, hu, h⟩ := bind_ok.1 h
  cases hin.symm.trans hu
  obtain ⟨ys, hys, h⟩ := bind_ok.1 h
  refine ⟨ys, (ok.inj h).symm, (forall₂_of_mapList hys).imp fun x y hxy => ?_⟩
  cases hw : eval d body (set vars v x) with
  | error m => rw [hw] at hxy; cases hxy
  | ok w => rw [hw] at hxy; exact ⟨w, rfl, (ok.inj hxy).symm⟩

end

theorem eval_concatArrays {ys : List Value} (ha : eval d a vars = .ok (some (.arr xs)))
    (hb : eval d b vars = .ok (some (.arr ys))) :
    eval d (concatArrays a b) vars = .ok (some (.arr (xs ++ ys))) := by
  change (eval d a vars >>= fun x => eval d b vars >>= _) = _
  rw [ha, hb]
  rfl

theorem eval_mergeObjects {xs ys : Doc} (ha : eval d a vars = .ok (some (.doc xs)))
    (hb : eval d b vars = .ok (some (.doc ys))) :
    eval d (mergeObjects a b) vars = .ok (some (.doc (setAll xs ys))) := by
  change (eval d a vars >>= fun x => eval d b vars >>= _) = _
  rw [ha, hb]
  rfl

theorem eval_size (ha : eval d a vars = .ok (some (.arr xs))) :
    eval d (size a) vars = .ok (some (.int xs.length)) := by
  change (eval d a vars >>= _) = _
  rw [ha]
  rfl

theorem eval_type (ha : eval d a vars = .ok x) :
    eval d (type a) vars = .ok (some (.str (typeName x))) := by
  change (eval d a vars >>= _) = _
  rw [ha]
  rfl

end Expr
