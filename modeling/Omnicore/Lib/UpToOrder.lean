import Mathlib.Data.Option.Defs
import Omnicore.Lib.Document

/-!
# Documents up to the order of their arrays

A document store keeps the order of an array, a relational store leaves the order of a result
open.  Two documents are the same up to order when they hold the same keys with the same values,
arrays compared as multisets.

## Main definitions

* `AssocMap.Rel` : maps with the same keys and related values.
* `Value.UpToOrder`, `Doc.UpToOrder` : equality up to the order of arrays.
-/

namespace AssocMap

variable {κ ν : Type*} {R : ν → ν → Prop}

/-- Maps with the same keys, in the same order, and related values. -/
inductive Rel (R : ν → ν → Prop) : AssocMap κ ν → AssocMap κ ν → Prop where
  | nil : Rel R [] []
  | cons {k : κ} {v w : ν} {m m' : AssocMap κ ν} (hv : R v w) (h : Rel R m m') :
      Rel R ((k, v) :: m) ((k, w) :: m')

theorem Rel.refl (hR : ∀ v, R v v) (m : AssocMap κ ν) : Rel R m m := by
  induction m with
  | nil => exact .nil
  | cons p m ih => exact .cons (hR p.2) ih

variable [DecidableEq κ] {m m' : AssocMap κ ν} {k : κ} {v w : ν}

theorem Rel.set (h : Rel R m m') (hv : R v w) : Rel R (m.set k v) (m'.set k w) := by
  induction h with
  | nil => exact .cons hv .nil
  | cons hvw h ih =>
    simp only [AssocMap.set]
    split_ifs
    · exact .cons hv h
    · exact .cons hvw ih

theorem Rel.get (h : Rel R m m') (k : κ) : Option.Rel R (m.get k) (m'.get k) := by
  induction h with
  | nil => exact .none
  | cons hvw h ih =>
    rw [get_cons, get_cons]
    split_ifs
    · exact .some hvw
    · exact ih

theorem Rel.erase (h : Rel R m m') : Rel R (m.erase k) (m'.erase k) := by
  induction h with
  | nil => exact .nil
  | @cons j v w m m' hv h ih =>
    by_cases hj : j = k
    · simpa [AssocMap.erase, hj] using ih
    · simpa [AssocMap.erase, hj] using Rel.cons hv ih

/-- Assignments of related values, one after another. -/
theorem Rel.foldl_set {ι : Type*} {l : List ι} {key : ι → κ} {f g : ι → ν} (h : Rel R m m')
    (hfg : ∀ i ∈ l, R (f i) (g i)) :
    Rel R (l.foldl (fun m i => m.set (key i) (f i)) m)
      (l.foldl (fun m i => m.set (key i) (g i)) m') := by
  induction l generalizing m m' with
  | nil => exact h
  | cons i l ih =>
    exact ih (h.set (hfg i List.mem_cons_self)) fun j hj => hfg j (List.mem_cons_of_mem _ hj)

end AssocMap

/-- Equality of values up to the order of arrays. -/
inductive Value.UpToOrder : Value → Value → Prop where
  | refl (v : Value) : UpToOrder v v
  | arr {xs ys : List Value} (h : xs.Perm ys) : UpToOrder (.arr xs) (.arr ys)
  | doc {d e : Doc} (h : AssocMap.Rel UpToOrder d e) : UpToOrder (.doc d) (.doc e)

/-- Equality of documents up to the order of arrays. -/
def Doc.UpToOrder (d e : Doc) : Prop := AssocMap.Rel Value.UpToOrder d e

theorem Doc.UpToOrder.refl (d : Doc) : Doc.UpToOrder d d := AssocMap.Rel.refl Value.UpToOrder.refl d

theorem Value.UpToOrder.str_iff {v w : Value} (h : v.UpToOrder w) {s : String} :
    v = .str s ↔ w = .str s := by
  cases h <;> simp

/-- A string has no other order. -/
theorem Doc.UpToOrder.get_str {d e : Doc} (h : Doc.UpToOrder d e) {k s : String} :
    d.get k = some (.str s) ↔ e.get k = some (.str s) := by
  have hrel := AssocMap.Rel.get h k
  generalize d.get k = v at hrel
  generalize e.get k = w at hrel
  cases hrel with
  | none => exact Iff.rfl
  | some hv => simp [hv.str_iff]
