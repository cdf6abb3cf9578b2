import Omnicore.Lib.DocPath
import Omnicore.Web.QueryCriteria

/-!
# Field-level read restrictions

A query that finds its caller may not see a field removes the field from the criteria: from the
selection of fields, from the ordering and from the filter.  A selection is either a list of the
fields to include or a list of those to leave out, and removing a field from it may turn the one
into the other.  The relational reader cuts the document it serves down to the selection in memory.

## Main definitions

* `Projection.drop`, `restrict` : take a field out of a selection, and out of the criteria.
* `applyProjection` : the document the relational reader serves.
* `Withheld` : some fields have no part in a read.

## Main results

* `dropAll_survives`, `dropAll_emptied` : what a sequence of removals makes of an inclusion.
* `withheld_iff` : when a sequence of restrictions withholds every field it names.
-/

namespace Omnicore.Queryschema

open DocPath List Projection

/-! ### Go paths -/

variable (c : ReadCriteria) (path : String)

/-- The segments of a dotted Go path. -/
def segments : Path := (path.toList.splitOn '.').map String.ofList

theorem segments_ne_nil : segments path ≠ [] := by simp [segments]

/-- Lower the case of an ASCII letter. -/
def toLowerRune (c : Char) : Char := if c.isUpper then c.toLower else c

/-- A Go identifier in lower camel case: of a leading run of capitals the last one stays when it
starts the next word. -/
def toLowerCamel (s : String) : String :=
  let cs := s.toList
  let upper := cs.takeWhile Char.isUpper
  let rest := cs.dropWhile Char.isUpper
  match upper.length, rest with
  | 0, _ => s
  | 1, _ | _, [] => String.ofList (upper.map toLowerRune ++ rest)
  | _, _ => String.ofList (upper.dropLast.map toLowerRune ++ upper.getLast?.toList ++ rest)

/-- A Go path as the wire spells it. -/
def wireFieldPath : String := ".".intercalate ((segments path).map toLowerCamel)

/-! ### Selections -/

namespace Projection

/-- The paths a selection names. -/
def paths : Projection → List String
  | .projectAll => []
  | .projectOnly paths | .projectExcept paths => paths

/-- The selection is a list of fields to include. -/
def isInclusion : Projection → Bool
  | .projectOnly paths => paths ≠ []
  | _ => false

/-- The selection would keep a path in the result. -/
def keeps (p : Projection) (path : String) : Bool :=
  if !p.narrows then true
  else match p with
    | .projectOnly paths => path ∈ paths
    | _ => path ∉ p.paths

/-- Take a path out of the result.  An inclusion that loses its last path becomes the exclusion of
that path. -/
def drop (p : Projection) (path : String) : Projection :=
  match p with
  | .projectOnly paths =>
    let kept := paths.filter (· ≠ path)
    if kept = [] then .projectExcept [path] else .projectOnly kept
  | _ => .projectExcept (path :: p.paths)

end Projection

/-! ### Restrictions -/

/-- The refusal of a read that named a field its caller may not see. -/
structure FieldAccessForbidden where
  context : String := "Query"
  field : String
  deriving DecidableEq, Repr

/-- The request names the field in a filter, in an inclusion or in an ordering term. -/
def referencesField : Bool :=
  (AssocMap.get c.filter path).isSome || (c.projection.isInclusion && path ∈ c.projection.paths) ||
    c.orderBy.any (·.1 = path)

/-- Remove the field from the selection, the ordering and the filter. -/
def scrubField : ReadCriteria :=
  { c with
    projection := c.projection.drop path
    orderBy := c.orderBy.filter (·.1 ≠ path)
    filter := AssocMap.erase c.filter path }

/-- Remove a field from a read; an active use of the field is refused as well. -/
def restrict : Option FieldAccessForbidden × ReadCriteria :=
  (if referencesField c path then some { field := wireFieldPath path } else none, scrubField c path)

variable (paths : List String)

/-- The criteria after a sequence of restrictions, whatever each of them returned. -/
def restrictAll : ReadCriteria := paths.foldl (fun c path => (restrict c path).2) c

/-- Cut a served document down to a selection. -/
def applyProjection (doc : Doc) (proj : Projection) : Doc :=
  if doc = [] ∨ proj.narrows = false then doc
  else if proj.isInclusion then pruneInclude (.ofPaths (proj.paths.map segments)) doc
  else match proj.paths.foldl (fun v path => excludePath (segments path) v) (.doc doc) with
    | .doc d => d
    | _ => doc

/-- Some fields have no part in a read: they are not selected, not ordered by, not filtered on, and
the document that is served has no value of them. -/
structure Withheld (c : ReadCriteria) (paths : List String) : Prop where
  projection : ∀ p ∈ paths, c.projection.keeps p = false
  ordering : ∀ p ∈ paths, ∀ o ∈ c.orderBy, o.1 ≠ p
  filter : ∀ p ∈ paths, AssocMap.get c.filter p = none
  document : ∀ p ∈ paths, ∀ doc,
    valuesAt (segments p) (.doc (applyProjection doc c.projection)) = []

/-! ### What the criteria keep -/

theorem restrictAll_projection :
    (restrictAll c paths).projection = paths.foldl drop c.projection := by
  induction paths generalizing c with
  | nil => rfl
  | cons p paths ih => exact ih _

theorem restrictAll_keeps :
    (∀ o ∈ (restrictAll c paths).orderBy, o ∈ c.orderBy ∧ o.1 ∉ paths) ∧
      ∀ k, AssocMap.get (restrictAll c paths).filter k =
        if k ∈ paths then none else AssocMap.get c.filter k := by
  induction paths generalizing c with
  | nil => exact ⟨fun o ho => ⟨ho, not_mem_nil⟩, fun k => by simp [restrictAll]⟩
  | cons p paths ih =>
    obtain ⟨horder, hfilter⟩ := ih (restrict c p).2
    constructor
    · intro o ho
      obtain ⟨hmem, hnot⟩ := horder o ho
      obtain ⟨hmem, hne⟩ := mem_filter.1 hmem
      have hne : o.1 ≠ p := of_decide_eq_true hne
      exact ⟨hmem, by simp [hne, hnot]⟩
    · intro k
      refine (hfilter k).trans ?_
      rw [restrict, scrubField, AssocMap.get_erase]
      by_cases hk : k = p
      · subst hk
        simp
      · simp [hk, Ne.symm hk]

/-! ### What a sequence of removals makes of a selection -/

theorem mem_dropAll_except (xs paths : List String) :
    ∃ ys, paths.foldl drop (.projectExcept xs) = .projectExcept ys ∧
      ∀ y, y ∈ ys ↔ y ∈ xs ∨ y ∈ paths := by
  induction paths generalizing xs with
  | nil => exact ⟨xs, rfl, fun y => by simp⟩
  | cons p paths ih =>
    obtain ⟨ys, heq, hys⟩ := ih (p :: xs)
    refine ⟨ys, heq, fun y => (hys y).trans ?_⟩
    simp only [mem_cons]
    tauto

variable {xs : List String} {p : String}

theorem dropAll_survives {paths : List String} (h : ∃ s ∈ xs, s ∉ paths) :
    paths.foldl drop (.projectOnly xs) = .projectOnly (xs.filter (· ∉ paths)) := by
  induction paths generalizing xs with
  | nil => simp
  | cons p paths ih =>
    obtain ⟨s, hs, hnot⟩ := h
    rw [mem_cons, not_or] at hnot
    have hmem : s ∈ xs.filter (· ≠ p) := by simpa using ⟨hs, hnot.1⟩
    have hne : xs.filter (· ≠ p) ≠ [] := ne_nil_of_mem hmem
    rw [foldl_cons, Projection.drop, if_neg hne, ih ⟨s, hmem, hnot.2⟩, filter_filter]
    congr 2
    simp [Bool.and_comm]

/-- The removal that takes the last path of an inclusion forgets the removals before it. -/
theorem dropAll_emptied {pre : List String} (post : List String) (hall : ∀ s ∈ xs, s ∈ pre ++ [p])
    (hlast : pre = [] ∨ ∃ s ∈ xs, s ∉ pre) :
    ∃ ys, (pre ++ p :: post).foldl drop (.projectOnly xs) = .projectExcept ys ∧
      ∀ y, y ∈ ys ↔ y ∈ p :: post := by
  have hpre : pre.foldl Projection.drop (.projectOnly xs) = .projectOnly (xs.filter (· ∉ pre)) := by
    rcases hlast with rfl | h
    · simp
    · exact dropAll_survives h
  have hempty : (xs.filter (· ∉ pre)).filter (· ≠ p) = [] := by
    rw [filter_filter, filter_eq_nil_iff]
    intro s hs
    have := hall s hs
    simp only [mem_append, mem_singleton] at this
    simp only [ne_eq, Bool.and_eq_true, decide_eq_true_eq, not_and, not_not]
    tauto
  obtain ⟨ys, heq, hys⟩ := mem_dropAll_except [p] post
  refine ⟨ys, ?_, fun y => (hys y).trans (by simp)⟩
  rw [foldl_append, hpre, foldl_cons, Projection.drop, if_pos hempty, heq]

theorem exists_last {paths : List String} (hne : paths ≠ []) (h : ∀ s ∈ xs, s ∈ paths) :
    ∃ pre p post, paths = pre ++ p :: post ∧ (∀ s ∈ xs, s ∈ pre ++ [p]) ∧
      (pre = [] ∨ ∃ s ∈ xs, s ∉ pre) := by
  induction paths using reverseRecOn with
  | nil => exact absurd rfl hne
  | append_singleton init p ih =>
    by_cases hin : init = [] ∨ ∃ s ∈ xs, s ∉ init
    · exact ⟨init, p, [], by simp, h, hin⟩
    · rw [not_or] at hin
      obtain ⟨pre, q, post, rfl, hall, hlast⟩ := ih hin.1 fun s hs => by
        by_contra hnot
        exact hin.2 ⟨s, hs, hnot⟩
      exact ⟨pre, q, post ++ [p], by simp, hall, hlast⟩

/-! ### The served document -/

theorem valuesAt_applyProjection_except (hp : p ∈ xs) (doc : Doc) :
    valuesAt (segments p) (.doc (applyProjection doc (.projectExcept xs))) = [] := by
  have hne : segments p ≠ [] := segments_ne_nil p
  have hdocs : ∀ (q : Path) (v : Value), (∃ d, v = .doc d) → ∃ d, excludePath q v = .doc d := by
    rintro q v ⟨d, rfl⟩
    match q with
    | [] => exact ⟨d, rfl⟩
    | [k] => exact ⟨_, rfl⟩
    | k :: j :: js => exact ⟨_, rfl⟩
  have hfold : ∀ (l : List String) (v : Value), (∃ d, v = .doc d) →
      (∃ d, l.foldl (fun v path => excludePath (segments path) v) v = .doc d) ∧
      (valuesAt (segments p) v = [] ∨ p ∈ l →
        valuesAt (segments p) (l.foldl (fun v path => excludePath (segments path) v) v) = []) := by
    intro l
    induction l with
    | nil => exact fun v hv => ⟨hv, fun h => h.resolve_right not_mem_nil⟩
    | cons q l ih =>
      intro v hv
      refine ⟨(ih _ (hdocs _ v hv)).1, fun h => (ih _ (hdocs _ v hv)).2 ?_⟩
      rcases h with h | h
      · exact .inl (valuesAt_excludePath_of_nil h _)
      · rcases mem_cons.1 h with rfl | h
        · exact .inl (valuesAt_excludePath hne v)
        · exact .inr h
  obtain ⟨⟨d, hd⟩, hnil⟩ := hfold xs (.doc doc) ⟨doc, rfl⟩
  have hnarrows : narrows (.projectExcept xs) = true := by
    simpa [narrows] using ne_nil_of_mem hp
  have hnil := hnil (.inr hp)
  rw [hd] at hnil
  rw [applyProjection]
  split_ifs with hdoc
  · obtain rfl : doc = [] := by simpa [hnarrows] using hdoc
    obtain ⟨k, ks, hk⟩ := exists_cons_of_ne_nil hne
    rw [hk]
    exact valuesAt_cons_eq_nil.2 fun e he w hw => by
      obtain rfl := mem_singleton.1 he
      cases hw
  · simp [isInclusion] at *
  · simp only [paths, hd]
    exact hnil

/-- An inclusion leaves no value at a path that meets none of those it names, and can leave one
below a path it names. -/
theorem valuesAt_applyProjection_only (hne : xs ≠ [])
    (hleaf : ∀ s ∈ xs, ¬ segments p <+: segments s) :
    (∀ doc, valuesAt (segments p) (.doc (applyProjection doc (.projectOnly xs))) = []) ↔
      ∀ s ∈ xs, ¬ segments s <+: segments p := by
  have hstands := standsFor_ofPaths (xs.map segments)
  have happly : ∀ doc, doc ≠ [] → applyProjection doc (.projectOnly xs) =
      pruneInclude (.ofPaths (xs.map segments)) doc := by
    intro doc hdoc
    simp [applyProjection, hdoc, narrows, isInclusion, paths, hne]
  have hnil : ∀ q : Path, q ≠ [] → valuesAt q (.doc []) = [] := by
    intro q hq
    obtain ⟨k, ks, rfl⟩ := exists_cons_of_ne_nil hq
    exact valuesAt_cons_eq_nil.2 fun e he w hw => by
      obtain rfl := mem_singleton.1 he
      cases hw
  constructor
  · intro hall s hs hsp
    obtain ⟨d, hd⟩ := exists_valuesAt_pruneInclude hstands (mem_map_of_mem hs)
      (segments_ne_nil s) hsp
    have hdoc : d ≠ [] := by
      rintro rfl
      refine hd ?_
      have : pruneInclude (.ofPaths (xs.map segments)) [] = [] := by
        cases PathTree.ofPaths (xs.map segments)
        rfl
      rw [this]
      exact hnil _ (segments_ne_nil p)
    exact hd (happly d hdoc ▸ hall d)
  · intro hmeet doc
    by_cases hdoc : doc = []
    · subst hdoc
      simpa [applyProjection] using hnil _ (segments_ne_nil p)
    · rw [happly doc hdoc]
      refine valuesAt_pruneInclude hstands (segments_ne_nil p) ?_ doc
      intro q hq
      obtain ⟨s, hs, rfl⟩ := mem_map.1 hq
      exact ⟨hmeet s hs, hleaf s hs⟩

/-! ### When a sequence of restrictions withholds its fields -/

theorem keeps_except : keeps (.projectExcept xs) p = false ↔ p ∈ xs := by
  cases xs <;>
    simp [keeps, narrows, paths, or_iff_not_imp_left]

theorem keeps_only : keeps (.projectOnly xs) p = false ↔ xs ≠ [] ∧ p ∉ xs := by
  cases xs <;> simp [keeps, narrows]

section

variable {c : ReadCriteria} {paths : List String}

theorem restrictAll_scrubs :
    (∀ p ∈ paths, ∀ o ∈ (restrictAll c paths).orderBy, o.1 ≠ p) ∧
      ∀ p ∈ paths, AssocMap.get (restrictAll c paths).filter p = none := by
  obtain ⟨horder, hfilter⟩ := restrictAll_keeps c paths
  refine ⟨fun p hp o ho he => (horder o ho).2 (he ▸ hp), fun p hp => ?_⟩
  rw [hfilter, if_pos hp]

theorem withheld_of_except {ys : List String}
    (h : paths.foldl drop c.projection = .projectExcept ys) :
    Withheld (restrictAll c paths) paths ↔ ∀ p ∈ paths, p ∈ ys := by
  have hproj := (restrictAll_projection c paths).trans h
  constructor
  · intro hw p hp
    have := hw.projection p hp
    rwa [hproj, keeps_except] at this
  · intro hys
    refine ⟨fun p hp => ?_, restrictAll_scrubs.1, restrictAll_scrubs.2, fun p hp doc => ?_⟩
    · rw [hproj, keeps_except]
      exact hys p hp
    · rw [hproj]
      exact valuesAt_applyProjection_except (hys p hp) doc

theorem withheld_of_only {xs : List String} (hne : xs ≠ [])
    (h : paths.foldl drop c.projection = .projectOnly xs)
    (hnot : ∀ p ∈ paths, p ∉ xs) (hleaf : ∀ p ∈ paths, ∀ s ∈ xs, ¬ segments p <+: segments s) :
    Withheld (restrictAll c paths) paths ↔ ∀ p ∈ paths, ∀ s ∈ xs, ¬ segments s <+: segments p := by
  have hproj := (restrictAll_projection c paths).trans h
  constructor
  · intro hw p hp
    refine (valuesAt_applyProjection_only hne (hleaf p hp)).1 fun doc => ?_
    have := hw.document p hp doc
    rwa [hproj] at this
  · intro hmeet
    refine ⟨fun p hp => ?_, restrictAll_scrubs.1, restrictAll_scrubs.2, fun p hp doc => ?_⟩
    · rw [hproj, keeps_only]
      exact ⟨hne, hnot p hp⟩
    · rw [hproj]
      exact (valuesAt_applyProjection_only hne (hleaf p hp)).2 (hmeet p hp) doc

end

/-- A sequence of restrictions is safe for a selection: where it is an inclusion, no path that stays
included contains a restricted one, and where the last included path goes, every field restricted
before is restricted again from there on. -/
def Safe (proj : Projection) (paths : List String) : Prop :=
  ∀ xs, proj = .projectOnly xs →
    (∀ s ∈ xs, s ∉ paths → ∀ p ∈ paths, ¬ segments s <+: segments p) ∧
    ∀ pre p post, paths = pre ++ p :: post → (∀ s ∈ xs, s ∈ pre ++ [p]) →
      (∃ s ∈ xs, s ∉ pre) → ∀ q ∈ pre, q ∈ p :: post

/-- **A sequence of restrictions withholds every leaf it names** exactly when it is safe for the
selection it meets. -/
theorem withheld_iff (c : ReadCriteria) (paths : List String)
    (hleaf : ∀ p ∈ paths, ∀ s ∈ c.projection.paths, segments p <+: segments s → s = p) :
    Withheld (restrictAll c paths) paths ↔ Safe c.projection paths := by
  -- an exclusion, or a selection that becomes one at once, gains every path
  have hexcept : ∀ xs, paths.foldl drop c.projection =
      paths.foldl drop (.projectExcept xs) → Withheld (restrictAll c paths) paths := by
    intro xs h
    obtain ⟨ys, heq, hys⟩ := mem_dropAll_except xs paths
    exact (withheld_of_except (h.trans heq)).2 fun p hp => (hys p).2 (.inr hp)
  cases hproj : c.projection with
  | projectExcept xs => exact iff_of_true (hexcept xs (by rw [hproj])) nofun
  | projectAll =>
    refine iff_of_true ?_ nofun
    cases paths with
    | nil => exact ⟨nofun, nofun, nofun, nofun⟩
    | cons p paths => exact hexcept [] (by rw [hproj]; rfl)
  | projectOnly xs =>
    simp only [Safe, projectOnly.injEq, forall_eq']
    by_cases hkept : ∃ s ∈ xs, s ∉ paths
    · -- the inclusion survives
      obtain ⟨s0, hs0, hs₀'⟩ := hkept
      have hsurv : paths.foldl drop (.projectOnly xs) = _ :=
        dropAll_survives ⟨s0, hs0, hs₀'⟩
      have hmem : ∀ s, s ∈ xs.filter (· ∉ paths) ↔ s ∈ xs ∧ s ∉ paths := fun s => by
        simp [mem_filter]
      rw [withheld_of_only (ne_nil_of_mem ((hmem s0).2 ⟨hs0, hs₀'⟩)) (by rw [hproj, hsurv])
        (fun p hp h => ((hmem p).1 h).2 hp) fun p hp s hs hps => ?_]
      · constructor
        · intro h
          refine ⟨fun s hs hnot p hp => h p hp s ((hmem s).2 ⟨hs, hnot⟩), ?_⟩
          rintro pre p post rfl hall -
          have := hall s0 hs0
          simp only [mem_append, mem_cons, not_or] at this hs₀'
          tauto
        · rintro ⟨h, -⟩ p hp s hs
          exact h s ((hmem s).1 hs).1 ((hmem s).1 hs).2 p hp
      · obtain ⟨hs, hnot⟩ := (hmem s).1 hs
        rw [hleaf p hp s (by rw [hproj]; exact hs) hps] at hnot
        exact hnot hp
    · -- the inclusion loses its last path
      have hall : ∀ s ∈ xs, s ∈ paths := fun s hs => by
        by_contra hnot
        exact hkept ⟨s, hs, hnot⟩
      rw [and_iff_right fun s hs hnot => absurd (hall s hs) hnot]
      constructor
      · rintro hw pre p post rfl hpre hlast q hq
        obtain ⟨ys, heq, hys⟩ := dropAll_emptied post hpre (.inr hlast)
        have := (withheld_of_except (by rw [hproj, heq])).1 hw q (mem_append_left _ hq)
        exact (hys q).1 this
      · intro hsafe
        by_cases hne : paths = []
        · subst hne
          exact ⟨nofun, nofun, nofun, nofun⟩
        · obtain ⟨pre, p, post, heq, hpre, hlast⟩ := exists_last hne hall
          obtain ⟨ys, hfold, hys⟩ := dropAll_emptied post hpre hlast
          refine (withheld_of_except (by rw [hproj, heq, hfold])).2 fun q hq => (hys q).2 ?_
          rw [heq, mem_append] at hq
          rcases hq with hq | hq
          · rcases hlast with rfl | hlast
            · cases hq
            · exact hsafe pre p post heq hpre hlast q hq
          · exact hq

/-- A request for two fields, both restricted one after the other: the second restriction turns the
emptied inclusion into the exclusion of its own field only, and the first field is served. -/
theorem salary_served_after_restrict :
    (restrictAll { projection := .projectOnly ["Salary", "Bonus"] } ["Salary", "Bonus"]).projection
        = .projectExcept ["Bonus"] ∧
      applyProjection [("Name", .str "Ann"), ("Salary", .int 9), ("Bonus", .int 2)]
        (restrictAll { projection := .projectOnly ["Salary", "Bonus"] }
          ["Salary", "Bonus"]).projection = [("Name", .str "Ann"), ("Salary", .int 9)] ∧
      ¬ Withheld (restrictAll { projection := .projectOnly ["Salary", "Bonus"] }
        ["Salary", "Bonus"]) ["Salary", "Bonus"] := by
  refine ⟨by decide, by decide, fun h => ?_⟩
  exact absurd (h.projection "Salary" (by decide)) (by decide)

/-- The same restrictions withhold both from a request that also names another field. -/
theorem salary_withheld_from_all :
    Withheld (restrictAll
      { projection := .projectOnly ["Name", "Salary"], orderBy := [("Salary", true)] }
      ["Salary", "Bonus"]) ["Salary", "Bonus"] := by
  refine (withheld_iff _ ["Salary", "Bonus"] (by decide)).2 ?_
  rintro xs ⟨⟩
  refine ⟨by decide, fun pre p post heq hall => ?_⟩
  have hname : "Name" ∈ pre ++ p :: post := by
    rw [append_cons]
    exact mem_append_left _ (hall "Name" mem_cons_self)
  exact absurd (heq ▸ hname) (by decide)

end Omnicore.Queryschema
