import Mathlib.Data.List.Infix
import Omnicore.Lib.Document

/-!
# Paths into documents

A path is a list of field names.  It descends through documents and through the documents of
arrays, so it may select many values of one document.  Two ways of cutting a document down are
provided: deleting what a path selects, and keeping only what the paths of a prefix tree lead to.

## Main definitions

* `Value.docs`, `Value.mapDocs` : the documents a path step goes through, and a change of them.
* `valuesAt` : the values a path selects.
* `excludePath` : delete what a path selects.
* `PathTree`, `pruneInclude` : keep what some paths lead to.

## Main results

* `valuesAt_excludePath` : nothing is left at an excluded path.
* `valuesAt_pruneInclude` : nothing is left at a path that no kept path meets.
* `exists_valuesAt_pruneInclude` : a path below a kept one can be left a value.
-/

namespace Value

/-- The documents a path step goes through: the value itself, or the documents of an array. -/
def docs : Value → List Doc
  | .doc d => [d]
  | .arr xs => xs.filterMap fun x => match x with
    | .doc d => some d
    | _ => none
  | _ => []

mutual

/-- Change every document of a value, through arrays of any depth. -/
def mapDocs (f : Doc → Doc) : Value → Value
  | .doc d => .doc (f d)
  | .arr xs => .arr (mapDocsList f xs)
  | v => v

/-- Change every document of the values of an array. -/
def mapDocsList (f : Doc → Doc) : List Value → List Value
  | [] => []
  | x :: xs => mapDocs f x :: mapDocsList f xs

end

theorem docs_mapDocs (f : Doc → Doc) (v : Value) : (v.mapDocs f).docs = v.docs.map f := by
  cases v with
  | arr xs =>
    simp only [mapDocs, docs]
    induction xs with
    | nil => rfl
    | cons x xs ih => cases x <;> simp [mapDocsList, mapDocs, ih]
  | _ => rfl

end Value

namespace DocPath

/-- A path into a document. -/
abbrev Path := List String

instance : LawfulBEq Path := inferInstance

/-- The values a path selects. -/
def valuesAt : Path → Value → List Value
  | [], v => [v]
  | k :: ks, v => v.docs.flatMap fun d => ((d.get k).map (valuesAt ks)).getD []

variable {v : Value} {p : Path} {ps : List Path}

/-- A path selects nothing where each of the documents it goes through has nothing to select. -/
theorem valuesAt_cons_eq_nil {k : String} {ks : Path} :
    valuesAt (k :: ks) v = [] ↔ ∀ d ∈ v.docs, ∀ w, d.get k = some w → valuesAt ks w = [] := by
  rw [valuesAt, List.flatMap_eq_nil_iff]
  refine forall₂_congr fun d _ => ?_
  cases d.get k with
  | none => simp
  | some w => simp

/-! ### Deleting a path -/

/-- Change the value of one field. -/
def alterField (k : String) (f : Value → Value) (d : Doc) : Doc :=
  match d.get k with
  | some v => d.set k (f v)
  | none => d

theorem get_alterField (k j : String) (f : Value → Value) (d : Doc) :
    (alterField k f d).get j = if k = j then (d.get j).map f else d.get j := by
  unfold alterField
  split
  · rename_i v hv
    rw [AssocMap.get_set]
    split_ifs with h
    · subst h
      rw [hv]
      rfl
    · rfl
  · rename_i hv
    split_ifs with h
    · subst h
      rw [hv]
      rfl
    · rfl

/-- Delete what a path selects. -/
def excludePath : Path → Value → Value
  | [], v => v
  | [k], v => v.mapDocs (·.erase k)
  | k :: ks, v => v.mapDocs (alterField k (excludePath ks))

/-- **Nothing is left at an excluded path.** -/
theorem valuesAt_excludePath (hp : p ≠ []) (v : Value) : valuesAt p (excludePath p v) = [] := by
  induction p generalizing v with
  | nil => exact absurd rfl hp
  | cons k ks ih =>
    rw [valuesAt_cons_eq_nil]
    intro d hd w hw
    cases ks with
    | nil =>
      simp only [excludePath, Value.docs_mapDocs] at hd
      obtain ⟨e, -, rfl⟩ := List.mem_map.1 hd
      rw [AssocMap.get_erase, if_pos rfl] at hw
      cases hw
    | cons j js =>
      simp only [excludePath, Value.docs_mapDocs] at hd
      obtain ⟨e, -, rfl⟩ := List.mem_map.1 hd
      rw [get_alterField, if_pos rfl] at hw
      obtain ⟨u, -, rfl⟩ := Option.map_eq_some_iff.1 hw
      exact ih (List.cons_ne_nil _ _) u

/-- Deleting another path leaves nothing where there was nothing. -/
theorem valuesAt_excludePath_of_nil (h : valuesAt p v = []) (q : Path) :
    valuesAt p (excludePath q v) = [] := by
  induction p generalizing v q with
  | nil => cases h
  | cons k ks ih =>
    rw [valuesAt_cons_eq_nil] at h ⊢
    intro d hd w hw
    match q with
    | [] => exact h d hd w hw
    | [j] =>
      simp only [excludePath, Value.docs_mapDocs] at hd
      obtain ⟨e, he, rfl⟩ := List.mem_map.1 hd
      rw [AssocMap.get_erase] at hw
      split_ifs at hw
      exact h e he w hw
    | j :: i :: is =>
      simp only [excludePath, Value.docs_mapDocs] at hd
      obtain ⟨e, he, rfl⟩ := List.mem_map.1 hd
      rw [get_alterField] at hw
      split_ifs at hw with hj
      · obtain ⟨u, hu, rfl⟩ := Option.map_eq_some_iff.1 hw
        exact ih (h e he u hu) _
      · exact h e he w hw

/-! ### Keeping the paths of a tree -/

/-- A prefix tree of paths.  A node a path ends in is full. -/
inductive PathTree where
  | node (full : Bool) (children : List (String × PathTree))

open PathTree List AssocMap Value

namespace PathTree

/-- A path ends here. -/
def full : PathTree → Bool
  | node f _ => f

/-- The next steps. -/
def children : PathTree → AssocMap String PathTree
  | node _ cs => cs

/-- The tree of no path. -/
def empty : PathTree := node false []

/-- Add a path. -/
def add : Path → PathTree → PathTree
  | [], node _ cs => node true cs
  | k :: ks, node f cs => node f (set cs k (add ks ((get cs k).getD empty)))

/-- The tree of some paths. -/
def ofPaths (ps : List Path) : PathTree := ps.foldr add empty

/-- What the tree says about a value below it is to keep it whole. -/
def keepsWhole (t : PathTree) : Bool := t.full || t.children.isEmpty

/-- The node a path leads to. -/
def descend : PathTree → Path → Option PathTree
  | t, [] => some t
  | t, k :: ks => (t.children.get k).bind (descend · ks)

end PathTree

/-- Change the documents a path step goes through; a value without any is dropped. -/
def cutDocs (f : Doc → Doc) : Value → Option Value
  | .doc d => some (.doc (f d))
  | .arr xs => some (.arr (xs.map fun x => match x with
    | .doc d => .doc (f d)
    | x => x))
  | _ => none

theorem docs_cutDocs {f : Doc → Doc} {w : Value} (h : cutDocs f v = some w) :
    w.docs = v.docs.map f := by
  cases v with
  | doc d => cases h; rfl
  | arr xs =>
    cases h
    simp only [docs]
    induction xs with
    | nil => rfl
    | cons x xs ih => cases x <;> simp [ih]
  | _ => cases h

mutual

/-- Keep the fields of a document that a tree names. -/
def pruneInclude : PathTree → Doc → Doc
  | .node _ cs, d => d.filterMap fun p => (pruneField cs p.1 p.2).map (p.1, ·)

/-- What is kept of a field: its whole value, its documents cut down, or nothing. -/
def pruneField : List (String × PathTree) → String → Value → Option Value
  | [], _, _ => none
  | (j, t) :: cs, k, v =>
    if j = k then if t.keepsWhole then some v else cutDocs (pruneInclude t) v
    else pruneField cs k v

end

/-! ### What a tree stands for -/

/-- What is left of the paths that start with a field. -/
def under (k : String) (ps : List Path) : List Path :=
  ps.filterMap fun p => match p with
    | j :: js => if j = k then some js else none
    | [] => none

theorem mem_under {k : String} : p ∈ under k ps ↔ k :: p ∈ ps := by
  simp only [under, mem_filterMap]
  constructor
  · rintro ⟨q, hq, h⟩
    match q with
    | [] => cases h
    | j :: js =>
      simp only [Option.ite_none_right_eq_some, Option.some.injEq] at h
      obtain ⟨rfl, rfl⟩ := h
      exact hq
  · exact fun h => ⟨_, h, by simp⟩

/-- A tree stands for some paths: its nodes are their prefixes, and a node is full where one of them
ends. -/
structure StandsFor (t : PathTree) (ps : List Path) : Prop where
  node : ∀ p, (t.descend p).isSome ↔ p = [] ∨ ∃ s ∈ ps, p <+: s
  full : ∀ p, (t.descend p).any full ↔ p ∈ ps

theorem descend_empty :
    ((empty.descend p).isSome ↔ p = []) ∧ (empty.descend p).any full = false := by
  cases p <;> simp [descend, empty, children, full]

/-- Adding a path adds its prefixes, and fills the node it ends in. -/
theorem descend_add (s : Path) (t : PathTree) :
    (((t.add s).descend p).isSome ↔ (t.descend p).isSome ∨ p <+: s) ∧
      (((t.add s).descend p).any full ↔ (t.descend p).any full ∨ p = s) := by
  induction p generalizing s t with
  | nil =>
    obtain ⟨f, cs⟩ := t
    cases s <;> simp [descend, add, full]
  | cons k ks ih =>
    obtain ⟨f, cs⟩ := t
    cases s with
    | nil => simp [descend, add, children]
    | cons j js =>
      simp only [descend, add, children, AssocMap.get_set, cons_prefix_cons, cons.injEq]
      by_cases hj : j = k
      · subst hj
        simp only [if_true, Option.bind_some, true_and]
        refine ⟨(ih js _).1.trans ?_, (ih js _).2.trans ?_⟩
        · cases hget : get cs j with
          | some c => rfl
          | none =>
            simp only [Option.getD_none, descend_empty.1, Option.bind_none,
              Option.isSome_none, Bool.false_eq_true, false_or, or_iff_right_iff_imp]
            rintro rfl
            exact nil_prefix
        · cases hget : get cs j with
          | some c => rfl
          | none => simp [(descend_empty).2]
      · simp [hj, Ne.symm hj]

/-- The tree of some paths stands for them. -/
theorem standsFor_ofPaths (ps : List Path) : StandsFor (ofPaths ps) ps := by
  induction ps with
  | nil =>
    refine ⟨fun p => ?_, fun p => ?_⟩
    · rw [ofPaths, foldr_nil]
      simpa using descend_empty.1
    · rw [ofPaths, foldr_nil]
      simpa using descend_empty.2
  | cons s ps ih =>
    refine ⟨fun p => (descend_add s (.ofPaths ps)).1.trans ?_,
      fun p => (descend_add s (.ofPaths ps)).2.trans ?_⟩
    · rw [ih.node]
      simp only [mem_cons, exists_eq_or_imp]
      rw [or_assoc, or_comm (b := p <+: s)]
    · rw [ih.full, mem_cons]
      tauto

namespace StandsFor

variable {t c : PathTree} {ps : List Path} {k : String}

/-- A step is absent when no path takes it. -/
theorem get_eq_none (h : StandsFor t ps) : t.children.get k = none ↔ ∀ s ∈ ps, ¬ [k] <+: s := by
  have hnode := h.node [k]
  have hdesc : t.descend [k] = t.children.get k := by
    simp only [descend]
    cases t.children.get k <;> rfl
  rw [hdesc] at hnode
  rw [← Option.not_isSome_iff_eq_none, hnode]
  simp

/-- A step is there because a path takes it. -/
theorem exists_mem (h : StandsFor t ps) (hc : t.children.get k = some c) : ∃ s ∈ ps, [k] <+: s := by
  by_contra hcon
  rw [h.get_eq_none.2 fun s hs hk => hcon ⟨s, hs, hk⟩] at hc
  cases hc

/-- The tree behind a step stands for the rests of the paths that take it. -/
theorem child (h : StandsFor t ps) (hc : t.children.get k = some c) : StandsFor c (under k ps) := by
  have hdesc : ∀ p, t.descend (k :: p) = c.descend p := fun p => by
    rw [descend, hc, Option.bind_some]
  obtain ⟨s, hs, hk⟩ := h.exists_mem hc
  obtain ⟨r, rfl⟩ := hk
  refine ⟨fun p => ?_, fun p => ?_⟩
  · rw [← hdesc, h.node]
    simp only [cons_ne_nil, false_or]
    constructor
    · rintro ⟨q, hq, hp⟩
      obtain ⟨r', rfl⟩ := hp
      exact .inr ⟨p ++ r', mem_under.2 hq, prefix_append ..⟩
    · rintro (rfl | ⟨q, hq, hp⟩)
      · exact ⟨_, hs, prefix_append ..⟩
      · exact ⟨k :: q, mem_under.1 hq, cons_prefix_cons.2 ⟨rfl, hp⟩⟩
  · rw [← hdesc, h.full, mem_under]

/-- Behind a step everything is kept exactly when one of the paths ends with it. -/
theorem keepsWhole_iff (h : StandsFor t ps) (hc : t.children.get k = some c) :
    c.keepsWhole = true ↔ [k] ∈ ps := by
  have hchild := h.child hc
  have hfull : c.full = true ↔ [k] ∈ ps := by
    rw [← mem_under, ← hchild.full []]
    simp [descend]
  rw [keepsWhole, Bool.or_eq_true, hfull, or_iff_left_iff_imp, List.isEmpty_iff]
  intro hempty
  -- a step without steps behind it ends a path
  obtain ⟨s, hs, hk⟩ := h.exists_mem hc
  obtain ⟨r, rfl⟩ := hk
  cases r with
  | nil => exact hs
  | cons j js =>
    have hnone : c.children.get j = none := by rw [hempty]; rfl
    exact absurd (prefix_append ..) (hchild.get_eq_none.1 hnone (j :: js) (mem_under.2 hs))

end StandsFor

/-! ### What is kept -/

/-- What is kept of a field. -/
theorem pruneField_eq (cs : AssocMap String PathTree) (k : String) :
    pruneField cs k v = (cs.get k).bind fun t =>
      if t.keepsWhole then some v else cutDocs (pruneInclude t) v := by
  induction cs with
  | nil => rfl
  | cons p cs ih =>
    obtain ⟨j, t⟩ := p
    rw [pruneField, get_cons]
    by_cases hj : j = k
    · rw [if_pos hj, if_pos hj, Option.bind_some]
    · rw [if_neg hj, if_neg hj]
      exact ih

/-- **Nothing is left at a path that no kept path meets.** -/
theorem valuesAt_pruneInclude {t : PathTree} (h : StandsFor t ps) (hp : p ≠ [])
    (hmeet : ∀ s ∈ ps, ¬ s <+: p ∧ ¬ p <+: s) (d : Doc) :
    valuesAt p (.doc (pruneInclude t d)) = [] := by
  induction p generalizing t ps d with
  | nil => exact absurd rfl hp
  | cons k ks ih =>
    rw [valuesAt_cons_eq_nil]
    intro e he w hw
    obtain rfl := mem_singleton.1 he
    obtain ⟨f, cs⟩ := t
    obtain ⟨q, -, hq⟩ := mem_filterMap.1 (mem_of_get hw)
    obtain ⟨u, hu, he⟩ := Option.map_eq_some_iff.1 hq
    obtain ⟨rfl, rfl⟩ := Prod.mk.inj he
    rw [pruneField_eq] at hu
    obtain ⟨c, hc, hu⟩ := Option.bind_eq_some_iff.1 hu
    have hchild := h.child hc
    have hpart : ¬ c.keepsWhole = true := fun hk =>
      (hmeet _ ((h.keepsWhole_iff hc).1 hk)).1 (prefix_append [q.1] ks)
    rw [if_neg hpart] at hu
    have hks : ks ≠ [] := by
      rintro rfl
      obtain ⟨s, hs, hk⟩ := h.exists_mem hc
      exact (hmeet s hs).2 hk
    have hrest : ∀ s ∈ under q.1 ps, ¬ s <+: ks ∧ ¬ ks <+: s := fun s hs => by
      have := hmeet _ (mem_under.1 hs)
      simpa [cons_prefix_cons] using this
    obtain ⟨j, js, rfl⟩ := exists_cons_of_ne_nil hks
    rw [valuesAt_cons_eq_nil]
    intro e he x hx
    rw [docs_cutDocs hu] at he
    obtain ⟨e', -, rfl⟩ := mem_map.1 he
    exact valuesAt_cons_eq_nil.1 (ih hchild hks hrest e') _ (mem_singleton.2 rfl) x hx

/-- The document with a value at one path. -/
def nest : Path → Value
  | [] => .null
  | k :: ks => .doc [(k, nest ks)]

theorem valuesAt_nest : valuesAt p (nest p) = [.null] := by
  induction p with
  | nil => rfl
  | cons k ks ih => simp [valuesAt, nest, docs, get_cons, ih]

/-- **A path below a kept one** can be left a value. -/
theorem exists_valuesAt_pruneInclude {t : PathTree} (h : StandsFor t ps) {s : Path} (hs : s ∈ ps)
    (hne : s ≠ []) (hsp : s <+: p) : ∃ d, valuesAt p (.doc (pruneInclude t d)) ≠ [] := by
  induction p generalizing t ps s with
  | nil => exact absurd (prefix_nil.1 hsp) hne
  | cons k ks ih =>
    obtain ⟨j, js, rfl⟩ := exists_cons_of_ne_nil hne
    obtain ⟨rfl, hjs⟩ := cons_prefix_cons.1 hsp
    obtain ⟨c, hc⟩ : ∃ c, t.children.get j = some c :=
      Option.ne_none_iff_exists'.1 fun hnone =>
        h.get_eq_none.1 hnone _ hs (prefix_append [j] js)
    obtain ⟨f, cs⟩ := t
    have hget : ∀ v, (pruneInclude (.node f cs) [(j, v)]).get j = pruneField cs j v := by
      intro v
      rw [pruneInclude]
      cases hv : pruneField cs j v with
      | none => simp [hv]
      | some w => simp [hv, get_cons]
    have hat : ∀ v w, pruneField cs j v = some w → valuesAt ks w ≠ [] →
        ∃ d, valuesAt (j :: ks) (.doc (pruneInclude (.node f cs) d)) ≠ [] := by
      intro v w hv hw
      refine ⟨[(j, v)], fun hnil => hw ?_⟩
      exact valuesAt_cons_eq_nil.1 hnil _ (mem_singleton.2 rfl) w ((hget v).trans hv)
    by_cases hwhole : c.keepsWhole = true
    · refine hat (nest ks) (nest ks) ?_ (by simp [valuesAt_nest])
      rw [pruneField_eq, show get cs j = some c from hc, Option.bind_some, if_pos hwhole]
    · have hjne : js ≠ [] := by
        rintro rfl
        exact hwhole ((h.keepsWhole_iff hc).2 hs)
      obtain ⟨d, hd⟩ := ih (h.child hc) (mem_under.2 hs) hjne hjs
      refine hat (.doc d) _ ?_ hd
      rw [pruneField_eq, show get cs j = some c from hc, Option.bind_some, if_neg hwhole]
      rfl

end DocPath
