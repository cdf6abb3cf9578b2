import Omnicore.Lib.DocPath

/-!
# Projections of a document store

A projection names paths and either keeps only what they lead to or drops what they lead to.  It
descends through nested documents and through the documents of arrays; a scalar on the way of a
kept path is dropped.

## Main definitions

* `cutFields`, `cutField` : the projection of a document, and of one of its fields.
* `Narrowed` : a projection goes inside the value at a path.

## Main results

* `narrowed_cons_iff` : going inside a value, field by field.
* `cutFields_congr` : a projection is a set of paths.
-/

namespace DocPath

open List

variable {incl : Bool} {paths subs : List Path} {s : Path}

mutual

/-- The part of a value that a projection keeps which goes inside it. -/
def cutValue (incl : Bool) (paths : List Path) : Value → Option Value
  | .doc fs => some (.doc (cutFields incl paths fs))
  | .arr xs => some (.arr (cutElems incl paths xs))
  | v => if incl then none else some v

/-- The projection of a document: a field no path goes through is kept by an exclusion only, a
field a path ends in by an inclusion only. -/
def cutFields (incl : Bool) (paths : List Path) : List (String × Value) → List (String × Value)
  | [] => []
  | (k, v) :: fs =>
    (if under k paths = [] then (if incl then none else some v)
      else if [] ∈ under k paths then (if incl then some v else none)
      else cutValue incl (under k paths) v).toList.map (k, ·) ++ cutFields incl paths fs

/-- The projection of the documents of an array. -/
def cutElems (incl : Bool) (paths : List Path) : List Value → List Value
  | [] => []
  | .doc fs :: xs => .doc (cutFields incl paths fs) :: cutElems incl paths xs
  | x :: xs => if incl then cutElems incl paths xs else x :: cutElems incl paths xs

end

/-- What a projection keeps of one field, by the paths under it. -/
def cutField (incl : Bool) (subs : List Path) (v : Value) : Option Value :=
  if subs = [] then (if incl then none else some v)
  else if [] ∈ subs then (if incl then some v else none)
  else cutValue incl subs v

variable {k : String} {v : Value} {fs : List (String × Value)}

theorem cutFields_cons :
    cutFields incl paths ((k, v) :: fs) =
      (cutField incl (under k paths) v).toList.map (k, ·) ++ cutFields incl paths fs := by
  rfl

theorem cutField_nil :
    cutField incl [] v = if incl then none else some v := if_pos rfl

theorem cutField_whole (h : [] ∈ subs) : cutField incl subs v = if incl then some v else none := by
  rw [cutField, if_neg (ne_nil_of_mem h), if_pos h]

theorem cutField_inside (hne : subs ≠ []) (h : [] ∉ subs) :
    cutField incl subs v = cutValue incl subs v := by
  rw [cutField, if_neg hne, if_neg h]

/-- A projection goes inside the value at a path: one of its paths leads below it, and none ends at
or above it. -/
def Narrowed (paths : List Path) (s : Path) : Prop := (∃ t, s ++ t ∈ paths) ∧ ∀ p ∈ paths, ¬ p <+: s

theorem narrowed_cons_iff (hnil : [] ∉ paths) {k : String} :
    Narrowed paths (k :: s) ↔ Narrowed (under k paths) s := by
  refine and_congr (exists_congr fun t => mem_under.symm) ?_
  constructor
  · intro h p hp hps
    exact h _ (mem_under.1 hp) (cons_prefix_cons.2 ⟨rfl, hps⟩)
  · intro h p hp hps
    cases p with
    | nil => exact hnil hp
    | cons j p =>
      obtain ⟨rfl, hp'⟩ := cons_prefix_cons.1 hps
      exact h p (mem_under.2 hp) hp'

theorem narrowed_nil_iff : Narrowed paths [] ↔ paths ≠ [] ∧ [] ∉ paths := by
  constructor
  · rintro ⟨⟨t, ht⟩, h⟩
    exact ⟨ne_nil_of_mem ht, fun hn => h [] hn (prefix_refl _)⟩
  · rintro ⟨hne, hn⟩
    obtain ⟨p, hp⟩ := exists_mem_of_ne_nil _ hne
    exact ⟨⟨p, hp⟩, fun q hq hqn => hn (prefix_nil.1 hqn ▸ hq)⟩

mutual

theorem cutValue_exclude_nil : ∀ v, cutValue false [] v = some v
  | .doc fs => by rw [cutValue, cutFields_exclude_nil fs]
  | .arr xs => by rw [cutValue, cutElems_exclude_nil xs]
  | .null | .bool _ | .int _ | .str _ | .time _ => by simp [cutValue]

/-- The exclusion of no path keeps the document. -/
theorem cutFields_exclude_nil : ∀ fs, cutFields false [] fs = fs
  | [] => by rw [cutFields]
  | (k, v) :: fs => by
    rw [cutFields_cons, cutFields_exclude_nil fs]
    rfl

theorem cutElems_exclude_nil : ∀ xs, cutElems false [] xs = xs
  | [] => by rw [cutElems]
  | .doc fs :: xs => by rw [cutElems, cutFields_exclude_nil fs, cutElems_exclude_nil xs]
  | .null :: xs | .bool _ :: xs | .int _ :: xs | .str _ :: xs | .time _ :: xs | .arr _ :: xs => by
    have ih := cutElems_exclude_nil xs
    simp [cutElems, ih]

end

mutual

variable {incl : Bool}

theorem cutValue_congr {P Q : List Path} (h : ∀ p, p ∈ P ↔ p ∈ Q) :
    ∀ v, cutValue incl P v = cutValue incl Q v
  | .doc fs => by rw [cutValue, cutValue, cutFields_congr h fs]
  | .arr xs => by rw [cutValue, cutValue, cutElems_congr h xs]
  | .null | .bool _ | .int _ | .str _ | .time _ => by simp [cutValue]

/-- A projection is a set of paths. -/
theorem cutFields_congr {P Q : List Path} (h : ∀ p, p ∈ P ↔ p ∈ Q) :
    ∀ fs, cutFields incl P fs = cutFields incl Q fs
  | [] => by rw [cutFields, cutFields]
  | (k, v) :: fs => by
    have hu : ∀ p, p ∈ under k P ↔ p ∈ under k Q := fun p => by rw [mem_under, mem_under, h]
    have hnil : under k P = [] ↔ under k Q = [] := by
      simp [eq_nil_iff_forall_not_mem, hu]
    rw [cutFields, cutFields, cutFields_congr h fs, cutValue_congr hu v]
    simp [hnil, hu]

theorem cutElems_congr {P Q : List Path} (h : ∀ p, p ∈ P ↔ p ∈ Q) :
    ∀ xs, cutElems incl P xs = cutElems incl Q xs
  | [] => by rw [cutElems, cutElems]
  | .doc fs :: xs => by rw [cutElems, cutElems, cutFields_congr h fs, cutElems_congr h xs]
  | .null :: xs | .bool _ :: xs | .int _ :: xs | .str _ :: xs | .time _ :: xs | .arr _ :: xs => by
    have ih : cutElems incl P xs = cutElems incl Q xs := cutElems_congr h xs
    simp [cutElems, ih]

end

theorem cutField_congr {P Q : List Path} (h : ∀ p, p ∈ P ↔ p ∈ Q) :
    cutField incl P v = cutField incl Q v := by
  have hnil : P = [] ↔ Q = [] := by simp [eq_nil_iff_forall_not_mem, h]
  rw [cutField, cutField, cutValue_congr h v]
  simp [hnil, h]

/-- A field whose value a projection does not decide as a whole is cut inside. -/
theorem cutField_eq_cutValue (h : [] ∉ subs) (hincl : incl = true → subs ≠ []) :
    cutField incl subs v = cutValue incl subs v := by
  by_cases hs : subs = []
  · cases incl with
    | true => exact absurd hs (hincl rfl)
    | false => rw [hs, cutField_nil, cutValue_exclude_nil]; rfl
  · exact cutField_inside hs h

end DocPath
