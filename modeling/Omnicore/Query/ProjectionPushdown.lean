import Omnicore.Query.ArchivedSegments

/-!
# Projection pushdown

A default read hands the requested projection to the store and takes archived content out of what
comes back.  A listing first adds the columns it needs for itself (the sort columns and the archived
columns of the segments the projection goes inside, and the identity) and deletes them again before
it answers; a read by id adds nothing.  Both should serve the projection of the document without
archived content.

## Main definitions

* `readByID`, `readPageItem` : the item a read makes of a stored document.
* `requested` : what the item should be.
* `Removable` : a sort column that a listing gets out again.
* `NamesArchivedAt` : an inclusion names the archived column of a segment.

## Main results

* `serves_readPageItem_iff` : what a listing serves.
* `removeColumns_cutFields` : a helper column that is taken out again leaves the projection.
* `projection_pushdown` : when a read by id and a listing serve what was asked for.
-/

namespace Omnicore.Queryschema

open DocPath List ViewNode

/-! ### The readers -/

/-- A projection by columns: the paths it keeps or leaves out.  Leaving out nothing is the read of
the whole document; an inclusion names something.  The store serves its own `_id` with an inclusion
that is not told otherwise: here it is a path like any other. -/
structure ColumnProjection where
  /-- The paths are those to keep. -/
  inclusion : Bool
  /-- The paths. -/
  paths : List Path
  /-- An inclusion narrows. -/
  narrows : inclusion = true → paths ≠ []

namespace ColumnProjection

/-- A projection under which the helper columns are served: an inclusion names them too, an
exclusion stops naming them. -/
def withHelpers (proj : ColumnProjection) (helpers : List Path) : ColumnProjection where
  inclusion := proj.inclusion
  paths := if proj.inclusion then proj.paths ++ helpers
    else proj.paths.filter fun p => p ∉ helpers
  narrows := by
    intro h
    rw [if_pos h]
    exact append_ne_nil_of_left_ne_nil (proj.narrows h) _

/-- The projection keeps the identity, which stands in a column of the view: `_id` itself for the
mirror of an upstream collection. -/
def keepsID (proj : ColumnProjection) (idColumn : String) : Bool :=
  decide ([idColumn] ∈ proj.paths) == proj.inclusion

end ColumnProjection

variable (node : ViewNode) (idColumn : String) (proj : ColumnProjection) (sortFields : List Path)
  (stored : Doc)

/-- The sort columns a projection would cut: the unnamed ones of an inclusion, the named ones of an
exclusion.  The store's identity is looked after by `identityAutoIncluded`. -/
def projectionAutoIncluded : List Path :=
  sortFields.filter fun s => s ≠ ["_id"] && (decide (s ∈ proj.paths) != proj.inclusion)

/-- The store's identity is served to a listing, whose cursors end in it. -/
def identityAutoIncluded : ColumnProjection := proj.withHelpers [["_id"]]

/-- Settle the identity of an item: one that the projection does not keep leaves under both its
names, one that is kept is lifted from the store's key where the document has no column for it. -/
def normalizeIdentity (kept : Bool) (d : Doc) : Doc :=
  if kept then
    if (d.get idColumn).isSome then d
    else match d.get "_id" with
      | some (.str id) => d.set idColumn (.str id)
      | _ => d
  else (d.erase "_id").erase idColumn

/-- The segments whose archived column a projection would cut: those it goes inside without naming
them whole.  A path that is added ends in a column, which is no segment, so it does not make the
projection touch another one. -/
def childArchivedAtAutoIncludes (childArchivedPaths : List (Path × String)) :
    List (Path × String) :=
  childArchivedPaths.filter fun p =>
    p.1 ∉ proj.paths ∧ (∃ q ∈ proj.paths, p.1 <+: q) ∧
      (proj.inclusion = true ∨ p.1 ++ [p.2] ∈ proj.paths)

/-- Delete a helper column from a document as the driver decodes it.  The documents inside it have
the driver's own map type, at which the walk along a longer path stops. -/
def deleteDocPath (d : Doc) : Path → Doc
  | [k] => d.erase k
  | _ => d

/-- Change the entries of a segment. -/
def mapEntries (f : Doc → Doc) : Value → Value
  | .doc e => .doc (f e)
  | .arr xs => .arr (xs.map fun x => match x with
    | .doc e => .doc (f e)
    | x => x)
  | v => v

/-- Delete a column of the entries at a path of segments. -/
def removeChildArchivedColumn (archivedCol : String) : Path → Doc → Doc
  | [], d => d.erase archivedCol
  | k :: segs, d => d.map fun p =>
    (p.1, if p.1 = k then mapEntries (removeChildArchivedColumn archivedCol segs) p.2 else p.2)

/-- Delete some columns one after the other. -/
def removeColumns (columns : List (Path × String)) (d : Doc) : Doc :=
  columns.foldl (fun d p => removeChildArchivedColumn p.2 p.1 d) d

/-- No path of a projection leads below another one. -/
def NoCollision (paths : List Path) : Prop := ∀ p ∈ paths, ∀ q ∈ paths, p <+: q → p = q

instance (paths : List Path) : Decidable (NoCollision paths) :=
  inferInstanceAs (Decidable (∀ p ∈ paths, ∀ q ∈ paths, p <+: q → p = q))

/-- The store's answer for a stored document.  It refuses a projection with a path below another
one. -/
def findProjected : Option Doc :=
  if NoCollision proj.paths then some (cutFields proj.inclusion proj.paths stored) else none

/-- The item a default read by id makes of a stored document. -/
def readByID : Option Doc :=
  (findProjected proj stored).map fun d =>
    normalizeIdentity idColumn (proj.keepsID idColumn) (node.stripArchivedChildren d)

/-- The segments a listing looks into and whose archived column it has to take out again. -/
def pageCleanup : List (Path × String) :=
  childArchivedAtAutoIncludes (proj.withHelpers (projectionAutoIncluded proj sortFields))
    node.childArchivedAtPaths

/-- The projection a listing sends: with the sort columns, then with the archived columns, then with
the store's identity. -/
def pageProjection : ColumnProjection :=
  identityAutoIncluded ((proj.withHelpers (projectionAutoIncluded proj sortFields)).withHelpers
    ((pageCleanup node proj sortFields).map fun p => p.1 ++ [p.2]))

/-- The item a default listing makes of a stored document. -/
def readPageItem : Option Doc :=
  (findProjected (pageProjection node proj sortFields) stored).map fun d =>
    normalizeIdentity idColumn (proj.keepsID idColumn) <|
      removeColumns (pageCleanup node proj sortFields) <| node.stripArchivedChildren <|
        (projectionAutoIncluded proj sortFields).foldl deleteDocPath d

/-- What the item should be: the projection of the document without archived content, with the
identity under both its names or under none. -/
def requested : Doc :=
  normalizeIdentity idColumn (proj.keepsID idColumn)
    (cutFields proj.inclusion proj.paths (node.stripArchivedChildren stored))

/-- A read answers with a document, up to the segments that hold `null`: an archived reference is
`null` in the item, and an inclusion that goes inside `null` leaves nothing of it. -/
def Serves (item : Option Doc) (wanted : Doc) : Prop :=
  ∃ d, item = some d ∧ node.plain d = node.plain wanted

/-! ### Resolved paths -/

/-- A path resolves: all but its last field are segments. -/
def ViewNode.Resolves (n : ViewNode) (p : Path) : Prop :=
  ∃ s k m, p = s ++ [k] ∧ n.nodeAt s = some m

/-- A path resolves to a column. -/
def ViewNode.Column (n : ViewNode) (p : Path) : Prop :=
  ∃ s k m, p = s ++ [k] ∧ n.nodeAt s = some m ∧ m.embedsByDoc.get k = none

/-- A projection that the schema resolves and the store takes: the identity is no segment, and an
inclusion has the store's own exactly when it names the view's. -/
structure ColumnProjection.Resolved (n : ViewNode) (idColumn : String) (proj : ColumnProjection) :
    Prop where
  resolves : ∀ p ∈ proj.paths, n.Resolves p
  noCollision : NoCollision proj.paths
  storeID : n.embedsByDoc.get "_id" = none
  viewID : n.embedsByDoc.get idColumn = none
  ofStore : ["_id"] ∈ proj.paths → [idColumn] ∈ proj.paths
  toStore : proj.inclusion = true → [idColumn] ∈ proj.paths → ["_id"] ∈ proj.paths

/-- The reader gets a sort column out again: a column of the document itself, or the archived
column of a segment that an inclusion goes inside. -/
def Removable (n : ViewNode) (proj : ColumnProjection) (s : Path) : Prop :=
  s.length = 1 ∨ proj.inclusion = true ∧ ∃ t a m, s = t ++ [a] ∧ n.nodeAt t = some m ∧
    m.archivedAtColumn = some a ∧ Narrowed proj.paths t

/-- An inclusion names the archived column of a segment, which a listing takes for its own. -/
def NamesArchivedAt (n : ViewNode) (proj : ColumnProjection) : Prop :=
  proj.inclusion = true ∧ ∃ s a m, s ≠ [] ∧ n.nodeAt s = some m ∧ m.archivedAtColumn = some a ∧
    s ++ [a] ∈ proj.paths

variable {s : Path} {m n : ViewNode}

variable {p : Path} {a : String}

theorem ViewNode.Column.resolves (h : n.Column p) : n.Resolves p := by
  obtain ⟨s, k, m, hp, hs, -⟩ := h
  exact ⟨s, k, m, hp, hs⟩

theorem ViewNode.Resolves.ne_nil (h : n.Resolves p) : p ≠ [] := by
  obtain ⟨s, k, -, rfl, -⟩ := h
  simp

theorem ViewNode.Column.not_above (h : n.Column p) (hs : n.nodeAt s = some m) : ¬ p <+: s := by
  rintro ⟨t, rfl⟩
  obtain ⟨r, k, m', rfl, hr, hk⟩ := h
  rw [nodeAt_append, nodeAt_snoc hr, hk] at hs
  cases hs

theorem ViewNode.Column.eq_of_above {q : Path} (h : n.Column p) (hq : n.Resolves q)
    (hpq : p <+: q) : p = q := by
  obtain ⟨s, k, m, rfl, hs⟩ := hq
  rcases prefix_concat_iff.1 hpq with rfl | hps
  · rfl
  · exact absurd hps (h.not_above hs)

theorem ViewNode.WellFormed.column (h : n.WellFormed) (hs : n.nodeAt s = some m)
    (ha : m.archivedAtColumn = some a) : n.Column (s ++ [a]) :=
  ⟨s, a, m, rfl, hs, (h s m hs).2 a ha⟩

variable {idColumn : String}

theorem ColumnProjection.Resolved.nil_not_mem {proj : ColumnProjection}
    (h : proj.Resolved n idColumn) :
    [] ∉ proj.paths := fun hn => (h.resolves [] hn).ne_nil rfl

/-! ### Helper columns in a projection -/

section Helpers

variable {n : ViewNode} {proj : ColumnProjection}

variable {helpers : List Path}

variable {p : Path}

theorem mem_withHelpers_include (hi : proj.inclusion = true) :
    p ∈ (proj.withHelpers helpers).paths ↔ p ∈ proj.paths ∨ p ∈ helpers := by
  show p ∈ (if _ then _ else _) ↔ _
  rw [if_pos hi, mem_append]

theorem mem_withHelpers_exclude (hi : ¬ proj.inclusion = true) :
    p ∈ (proj.withHelpers helpers).paths ↔ p ∈ proj.paths ∧ p ∉ helpers := by
  show p ∈ (if _ then _ else _) ↔ _
  rw [if_neg hi, mem_filter, decide_eq_true_iff]

theorem shows_withHelpers :
    (p ∈ (proj.withHelpers helpers).paths ↔ proj.inclusion = true) ↔
      p ∈ helpers ∨ (p ∈ proj.paths ↔ proj.inclusion = true) := by
  by_cases hi : proj.inclusion = true
  · rw [mem_withHelpers_include hi]
    tauto
  · rw [mem_withHelpers_exclude hi]
    tauto

theorem mem_withHelpers_of_not_mem (h : p ∉ helpers) :
    p ∈ (proj.withHelpers helpers).paths ↔ p ∈ proj.paths := by
  have hshows : (p ∈ (proj.withHelpers helpers).paths ↔ proj.inclusion = true) ↔ _ :=
    shows_withHelpers.trans (or_iff_right h)
  tauto

theorem mem_projectionAutoIncluded {sortFields : List Path} :
    s ∈ projectionAutoIncluded proj sortFields ↔
      s ∈ sortFields ∧ s ≠ ["_id"] ∧ ¬(s ∈ proj.paths ↔ proj.inclusion = true) := by
  rw [projectionAutoIncluded, mem_filter, Bool.and_eq_true, decide_eq_true_iff, bne_iff_ne]
  refine and_congr_right fun _ => and_congr_right fun _ => not_congr ?_
  cases proj.inclusion <;> simp

theorem mem_childArchivedAtAutoIncludes (h : n.WellFormed) {a : String} :
    (s, a) ∈ childArchivedAtAutoIncludes proj n.childArchivedAtPaths ↔
      (s ≠ [] ∧ ∃ m, n.nodeAt s = some m ∧ m.archivedAtColumn = some a) ∧ s ∉ proj.paths ∧
        (∃ q ∈ proj.paths, s <+: q) ∧ (proj.inclusion = true ∨ s ++ [a] ∈ proj.paths) := by
  rw [childArchivedAtAutoIncludes, mem_filter, mem_childArchivedAtPaths h, decide_eq_true_iff]

/-- The archived columns a listing adds to its projection, or stops leaving out. -/
def ArchivedHelper (n : ViewNode) (proj : ColumnProjection) (p : Path) : Prop :=
  ∃ s a m, p = s ++ [a] ∧ s ≠ [] ∧ n.nodeAt s = some m ∧ m.archivedAtColumn = some a ∧
    s ∉ proj.paths ∧ (∃ q ∈ proj.paths, s <+: q) ∧
    (proj.inclusion = true ∨ s ++ [a] ∈ proj.paths)

theorem mem_cleanup_paths (h : n.WellFormed) :
    p ∈ (childArchivedAtAutoIncludes proj n.childArchivedAtPaths).map (fun p => p.1 ++ [p.2]) ↔
      ArchivedHelper n proj p := by
  rw [mem_map]
  constructor
  · rintro ⟨⟨s, a⟩, hmem, rfl⟩
    obtain ⟨⟨hs, m, hat, ha⟩, hrest⟩ := (mem_childArchivedAtAutoIncludes h).1 hmem
    exact ⟨s, a, m, rfl, hs, hat, ha, hrest⟩
  · rintro ⟨s, a, m, rfl, hs, hat, ha, hrest⟩
    exact ⟨(s, a), (mem_childArchivedAtAutoIncludes h).2 ⟨⟨hs, m, hat, ha⟩, hrest⟩, rfl⟩

/-- **The listing's projection leaves every segment it goes inside its archived column.** -/
theorem keepsArchivedAt_cleanup (h : n.WellFormed) :
    n.KeepsArchivedAt proj.inclusion
      (proj.withHelpers ((childArchivedAtAutoIncludes proj n.childArchivedAtPaths).map
        fun p => p.1 ++ [p.2])).paths := by
  intro s m a hs hat ha ⟨⟨t, ht⟩, hpre⟩
  by_cases hi : proj.inclusion = true
  · simp only [mem_withHelpers_include hi, mem_cleanup_paths h] at ht hpre ⊢
    refine iff_of_true (.inr ⟨s, a, m, rfl, hs, hat, ha, ?_, ?_, .inl hi⟩) hi
    · exact fun hmem => hpre s (.inl hmem) (prefix_refl s)
    · -- a path that was added below the segment was added for one at or below it
      rcases ht with ht | ⟨s', a', m', he, -, hat', ha', -, ⟨q, hq, hs'q⟩, -⟩
      · exact ⟨_, ht, prefix_append s t⟩
      · refine ⟨q, hq, ?_⟩
        have hpt : s <+: s' ++ [a'] := he ▸ prefix_append s t
        rcases prefix_concat_iff.1 hpt with he' | hss'
        · exact absurd (he' ▸ prefix_refl s) ((h.column hat' ha').not_above hat)
        · exact hss'.trans hs'q
  · simp only [mem_withHelpers_exclude hi, mem_cleanup_paths h] at ht hpre ⊢
    refine iff_of_false ?_ hi
    rintro ⟨hmem, hout⟩
    refine hout ⟨s, a, m, rfl, hs, hat, ha, ?_, ⟨_, hmem, prefix_append s [a]⟩, .inr hmem⟩
    intro hs'
    refine hpre s ⟨hs', ?_⟩ (prefix_refl s)
    rintro ⟨s', a', m', rfl, -, hat', ha', -⟩
    exact (h.column hat' ha').not_above hat (prefix_refl _)

/-- The store's identity is no column of a segment. -/
theorem keepsArchivedAt_identity (hid : n.embedsByDoc.get "_id" = none)
    (h : n.KeepsArchivedAt proj.inclusion proj.paths) :
    n.KeepsArchivedAt proj.inclusion (identityAutoIncluded proj).paths := by
  intro s m a hs hat ha hnar
  have hseg : ¬ ["_id"] <+: s := by
    rintro ⟨t, rfl⟩
    rw [singleton_append, nodeAt, hid] at hat
    cases hat
  have hmem : ∀ t, s ++ t ∈ (identityAutoIncluded proj).paths ↔ s ++ t ∈ proj.paths := by
    refine fun t => mem_withHelpers_of_not_mem fun hid' => hseg ?_
    rw [mem_singleton, append_eq_singleton_iff] at hid'
    exact (hid'.resolve_left fun h => hs h.1).1 ▸ prefix_refl s
  rw [hmem]
  refine h s m a hs hat ha ⟨hnar.1.imp fun t => (hmem t).1, fun p hp hps => hnar.2 p ?_ hps⟩
  refine (mem_withHelpers_of_not_mem fun hid' => hseg ?_).2 hp
  exact mem_singleton.1 hid' ▸ hps

end Helpers

/-! ### Taking helper columns out again -/

section Remove

variable {incl : Bool} {P P' : List Path} {a : String} {k : String}

/-- Two projections differ at most in a column, which the first one loses.  It goes inside the
segment the column stands in, and not inside the column. -/
structure Loses (incl : Bool) (s : Path) (a : String) (P P' : List Path) : Prop where
  same : ∀ p, p ≠ s ++ [a] → (p ∈ P ↔ p ∈ P')
  lost : ¬(s ++ [a] ∈ P ↔ incl = true)
  leaf : ∀ p ∈ P, s ++ [a] <+: p → p = s ++ [a]
  inside : ∀ p ∈ P, ¬ p <+: s
  reach : incl = true → ∃ t, s ++ t ∈ P

theorem Loses.under (h : Loses incl (k :: s) a P P') :
    Loses incl s a (under k P) (under k P') where
  same := by
    intro p hp
    rw [mem_under, mem_under]
    exact h.same _ fun he => hp (cons_inj_right k |>.1 he)
  lost := by
    rw [mem_under]
    exact h.lost
  leaf := fun p hp hps =>
    cons_inj_right k |>.1 (h.leaf _ (mem_under.1 hp) (cons_prefix_cons.2 ⟨rfl, hps⟩))
  inside := fun p hp hps => h.inside _ (mem_under.1 hp) (cons_prefix_cons.2 ⟨rfl, hps⟩)
  reach := fun hi => (h.reach hi).imp fun _ => mem_under.2

theorem Loses.cutField_eq_none (h : Loses incl [] a P P') (v : Value) :
    cutField incl (DocPath.under a P) v = none := by
  by_cases hi : incl = true
  · have hu : DocPath.under a P = [] := by
      rw [eq_nil_iff_forall_not_mem]
      intro t ht
      have he := h.leaf _ (mem_under.1 ht) (cons_prefix_cons.2 ⟨rfl, nil_prefix⟩)
      exact h.lost (iff_of_true (he ▸ mem_under.1 ht) hi)
    rw [hu, cutField_nil, if_pos hi]
  · have hmem : [] ++ [a] ∈ P := by_contra fun hmem => h.lost (iff_of_false hmem hi)
    rw [cutField_whole (mem_under.2 hmem), if_neg hi]

theorem mapEntries_cutValue {f : Doc → Doc} (h : ∀ e, f (cutFields incl P' e) = cutFields incl P e)
    (v : Value) : (cutValue incl P' v).map (mapEntries f) = cutValue incl P v := by
  cases v with
  | doc e => simp [cutValue, mapEntries, h]
  | arr xs =>
    simp only [cutValue, Option.map_some, mapEntries, Option.some.injEq, Value.arr.injEq]
    induction xs with
    | nil => simp [cutElems]
    | cons x xs ih => cases x <;> cases incl <;> simp_all [cutElems]
  | _ => cases incl <;> simp [cutValue, mapEntries]

/-- Below a key that does not lead to the column the projections are the same. -/
theorem Loses.cutField_eq (h : Loses incl s a P P') (hk : ∀ t, k :: t ≠ s ++ [a]) (v : Value) :
    cutField incl (DocPath.under k P') v = cutField incl (DocPath.under k P) v := by
  have hsame : ∀ t, t ∈ DocPath.under k P' ↔ t ∈ DocPath.under k P := fun t => by
    rw [mem_under, mem_under, h.same _ (hk t)]
  rw [cutField_congr hsame]

theorem Loses.erase_cutFields (h : Loses incl [] a P P') (fs : Doc) :
    AssocMap.erase (cutFields incl P' fs) a = cutFields incl P fs := by
  rw [AssocMap.erase]
  induction fs with
  | nil => simp [cutFields]
  | cons p fs ih =>
    obtain ⟨k, v⟩ := p
    rw [cutFields_cons, cutFields_cons, filter_append, ih]
    by_cases hk : k = a
    · subst hk
      rw [h.cutField_eq_none, filter_eq_nil_iff.2]
      · rfl
      · intro q hq
        obtain ⟨w, -, rfl⟩ := mem_map.1 hq
        simp
    · rw [h.cutField_eq (by simp [hk]), filter_eq_self.2]
      intro q hq
      obtain ⟨w, -, rfl⟩ := mem_map.1 hq
      simp [hk]

/-- Both projections go inside the segment that leads to the column. -/
theorem Loses.cutField_eq_cutValue (h : Loses incl (k :: s) a P P') (v : Value) :
    cutField incl (DocPath.under k P) v = cutValue incl (DocPath.under k P) v ∧
      cutField incl (DocPath.under k P') v = cutValue incl (DocPath.under k P') v := by
  have hnil : ∀ Q, (∀ p ∈ Q, ¬ p <+: k :: s) → [] ∉ DocPath.under k Q := fun Q hQ hn =>
    hQ _ (mem_under.1 hn) (cons_prefix_cons.2 ⟨rfl, nil_prefix⟩)
  have hinside : ∀ p ∈ P', ¬ p <+: k :: s := by
    intro p hp hps
    refine h.inside p ((h.same p ?_).2 hp) hps
    rintro rfl
    exact absurd hps.length_le (by simp)
  have hreach : incl = true → DocPath.under k P ≠ [] ∧ DocPath.under k P' ≠ [] := by
    intro hi
    obtain ⟨t, ht⟩ := h.reach hi
    have ht' := (h.same _ fun he => h.lost (iff_of_true (he ▸ ht) hi)).1 ht
    exact ⟨ne_nil_of_mem (mem_under.2 ht), ne_nil_of_mem (mem_under.2 ht')⟩
  exact ⟨DocPath.cutField_eq_cutValue (hnil P h.inside) fun hi => (hreach hi).1,
    DocPath.cutField_eq_cutValue (hnil P' hinside) fun hi => (hreach hi).2⟩

/-- **A column that one projection serves and another loses is removed.** -/
theorem Loses.removeChildArchivedColumn_cutFields (h : Loses incl s a P P') (fs : Doc) :
    removeChildArchivedColumn a s (cutFields incl P' fs) = cutFields incl P fs := by
  induction s generalizing P P' fs with
  | nil =>
    rw [removeChildArchivedColumn, h.erase_cutFields]
  | cons k s ihs =>
    rw [removeChildArchivedColumn]
    induction fs with
    | nil => simp [cutFields]
    | cons p fs ih =>
      obtain ⟨j, v⟩ := p
      rw [cutFields_cons, cutFields_cons, map_append, ih, map_map]
      congr 1
      by_cases hj : j = k
      · subst hj
        obtain ⟨hP, hP'⟩ := h.cutField_eq_cutValue v
        rw [hP, hP', ← mapEntries_cutValue fun e => ihs h.under e]
        cases cutValue incl (DocPath.under j P') v <;> simp
      · rw [h.cutField_eq (by simp [hj])]
        refine map_congr_left fun w _ => ?_
        simp [hj]

/-- A column that a projection leaves out, among the paths `U`.  An inclusion goes inside the
segment the column stands in. -/
structure LeftOut (incl : Bool) (U P : List Path) (c : Path × String) : Prop where
  mem : c.1 ++ [c.2] ∈ U
  lost : ¬(c.1 ++ [c.2] ∈ P ↔ incl = true)
  reach : incl = true → ∃ t, c.1 ++ t ∈ P

/-- **Helper columns that are taken out again leave the projection.** -/
theorem removeColumns_cutFields {U : List Path} {H : List (Path × String)} (hU : NoCollision U)
    (hP' : P' ⊆ U) (hgrow : incl = true → P ⊆ P') (hH : ∀ h ∈ H, LeftOut incl U P h)
    (hsame : ∀ p, ¬(p ∈ P ↔ p ∈ P') → ∃ h ∈ H, p = h.1 ++ [h.2]) (fs : Doc) :
    removeColumns H (cutFields incl P' fs) = cutFields incl P fs := by
  induction H generalizing P' with
  | nil =>
    refine cutFields_congr (fun p => ?_) fs
    by_contra hne
    obtain ⟨h, hh, -⟩ := hsame p fun hiff => hne hiff.symm
    cases hh
  | cons h H ih =>
    obtain ⟨⟨hmem, hlost, hreach⟩, hH⟩ := forall_mem_cons.1 hH
    -- the projection that is left when the first column is out
    obtain ⟨Q, hQ⟩ : ∃ Q : List Path, ∀ p, p ∈ Q ↔
        if p = h.1 ++ [h.2] then ¬ incl = true else p ∈ P' := by
      refine ⟨if incl then P'.filter (· ≠ h.1 ++ [h.2]) else (h.1 ++ [h.2]) :: P', fun p => ?_⟩
      by_cases hp : p = h.1 ++ [h.2] <;> cases incl <;> simp [hp]
    have hQU : Q ⊆ U := by
      intro p hp
      rw [hQ] at hp
      split_ifs at hp with he
      · exact he ▸ hmem
      · exact hP' hp
    have hPQ : incl = true → P ⊆ Q := by
      intro hi p hp
      rw [hQ, if_neg]
      · exact hgrow hi hp
      · exact fun he => hlost (iff_of_true (he ▸ hp) hi)
    have hstep : Loses incl h.1 h.2 Q P' := by
      refine ⟨fun p hp => by rw [hQ, if_neg hp], by rw [hQ, if_pos rfl]; tauto, ?_, ?_, ?_⟩
      · exact fun p hp hpre => (hU _ hmem _ (hQU hp) hpre).symm
      · intro p hp hpre
        have he := hU _ (hQU hp) _ hmem (hpre.trans (prefix_append _ _))
        exact absurd (he ▸ hpre).length_le (by simp)
      · exact fun hi => (hreach hi).imp fun t ht => hPQ hi ht
    rw [removeColumns, foldl_cons, hstep.removeChildArchivedColumn_cutFields]
    refine ih hQU hPQ hH fun p hne => ?_
    rw [hQ] at hne
    split_ifs at hne with he
    · refine absurd ?_ hne
      rw [he]
      tauto
    · obtain ⟨h', hh', hp⟩ := hsame p hne
      rcases mem_cons.1 hh' with rfl | hh'
      · exact absurd hp he
      · exact ⟨h', hh', hp⟩

end Remove

/-! ### What a listing serves -/

theorem plain_filter_key (g : String → Bool) (fs : Doc) :
    n.plain (fs.filter fun p => g p.1) = (n.plain fs).filter fun p => g p.1 := by
  induction fs with
  | nil => simp [plain]
  | cons p fs ih =>
    obtain ⟨k, v⟩ := p
    rw [plain_cons, filter_append, ← ih]
    simp only [filter_cons]
    rcases n.plainField_cases k v with he | ⟨w, he⟩
    all_goals split_ifs with hg <;> simp [plain_cons, he, hg]

theorem plainValue_mapEntries {f : Doc → Doc} (h : ∀ e, m.plain (f e) = f (m.plain e)) (v : Value) :
    m.plainValue (mapEntries f v) = mapEntries f (m.plainValue v) := by
  cases v with
  | doc e => simp [mapEntries, plainValue, h]
  | arr xs =>
    simp only [mapEntries, plainValue, Value.arr.injEq]
    induction xs with
    | nil => rfl
    | cons x xs ih => cases x <;> simp_all [plainElems, plainValue]
  | _ => rfl

theorem plain_removeChildArchivedColumn (hat : n.nodeAt s = some m)
    (d : Doc) : n.plain (removeChildArchivedColumn a s d) =
      removeChildArchivedColumn a s (n.plain d) := by
  induction s generalizing n d with
  | nil => exact plain_filter_key (fun k => decide (k ≠ a)) d
  | cons k s ihs =>
    obtain ⟨n', hget, hat'⟩ := Option.bind_eq_some_iff.1 hat
    simp only [removeChildArchivedColumn]
    induction d with
    | nil => simp [plain]
    | cons p d ih =>
      obtain ⟨j, v⟩ := p
      rw [map_cons, plain_cons, plain_cons, map_append, ih]
      congr 1
      by_cases hj : j = k
      · subst hj
        have hnull : mapEntries (removeChildArchivedColumn a s) v = .null ↔ v = .null := by
          cases v <;> simp [mapEntries]
        by_cases hv : v = .null
        · simp [plainField, hget, plainSegment, hv, mapEntries]
        · simp [plainField, hget, plainSegment, hv, hnull, plainValue_mapEntries (ihs hat')]
      · rcases n.plainField_cases j v with he | ⟨w, he⟩
        all_goals simp [hj, he]

theorem plain_removeColumns {H : List (Path × String)}
    (hH : ∀ h ∈ H, ∃ m, n.nodeAt h.1 = some m) (d : Doc) :
    n.plain (removeColumns H d) = removeColumns H (n.plain d) := by
  induction H generalizing d with
  | nil => rfl
  | cons h H ih =>
    obtain ⟨⟨m, hat⟩, hH⟩ := forall_mem_cons.1 hH
    rw [removeColumns, foldl_cons, ← removeColumns, ih hH, plain_removeChildArchivedColumn hat]
    rfl

theorem get_plain {k : String} (hk : n.embedsByDoc.get k = none) (d : Doc) :
    AssocMap.get (n.plain d) k = d.get k := by
  induction d with
  | nil => simp [plain]
  | cons p d ih =>
    obtain ⟨j, v⟩ := p
    rw [plain_cons, AssocMap.get_append, ih, AssocMap.get_cons]
    by_cases hj : j = k
    · simp [hj, plainField, hk, AssocMap.get_cons]
    · rcases n.plainField_cases j v with he | ⟨w, he⟩
      all_goals simp [he, hj, AssocMap.get_cons]

theorem plain_set {k : String} (hk : n.embedsByDoc.get k = none) (v : Value) (d : Doc) :
    n.plain (d.set k v) = AssocMap.set (n.plain d) k v := by
  induction d with
  | nil => simp [AssocMap.set, plain, hk]
  | cons p d ih =>
    obtain ⟨j, w⟩ := p
    rw [plain_cons, AssocMap.set]
    split_ifs with hj
    · simp [plain_cons, hj, plainField, hk, AssocMap.set]
    · rcases n.plainField_cases j w with he | ⟨u, he⟩
      all_goals simp [plain_cons, ih, he, hj, AssocMap.set]

/-- The identity is settled by columns. -/
theorem plain_normalizeIdentity (hid : n.embedsByDoc.get "_id" = none)
    (hview : n.embedsByDoc.get idColumn = none) (kept : Bool) (d : Doc) :
    n.plain (normalizeIdentity idColumn kept d) = normalizeIdentity idColumn kept (n.plain d) := by
  unfold normalizeIdentity
  rw [get_plain hid, get_plain hview]
  split_ifs with hk hv
  · rfl
  · split
    · exact plain_set hview _ d
    · rfl
  · rw [AssocMap.erase, AssocMap.erase, plain_filter_key fun k => decide (k ≠ idColumn),
      plain_filter_key fun k => decide (k ≠ "_id")]
    rfl

/-- The columns of the document itself among some paths. -/
def rootColumns (paths : List Path) : List (Path × String) :=
  paths.filterMap fun s => match s with
    | [k] => some ([], k)
    | _ => none

theorem mem_rootColumns {paths : List Path} {h : Path × String} :
    h ∈ rootColumns paths ↔ h.1 = [] ∧ [h.2] ∈ paths := by
  rw [rootColumns, mem_filterMap]
  constructor
  · rintro ⟨s, hs, he⟩
    split at he
    · cases he
      exact ⟨rfl, hs⟩
    · cases he
  · obtain ⟨s, k⟩ := h
    rintro ⟨rfl, hs⟩
    exact ⟨_, hs, rfl⟩

theorem foldl_deleteDocPath (paths : List Path) (d : Doc) :
    paths.foldl deleteDocPath d = removeColumns (rootColumns paths) d := by
  rw [removeColumns, rootColumns, foldl_filterMap]
  congr 1
  funext d s
  unfold deleteDocPath
  split <;> rfl

theorem strip_filter_key (g : String → Bool) (fs : Doc) :
    n.stripArchivedChildren (fs.filter fun p => g p.1) =
      (n.stripArchivedChildren fs).filter fun p => g p.1 := by
  induction fs with
  | nil => simp [stripArchivedChildren]
  | cons p fs ih =>
    rw [strip_cons]
    simp only [filter_cons]
    split_ifs with hg
    · rw [strip_cons, ih]
    · exact ih

theorem strip_rootColumns (paths : List Path) (d : Doc) :
    n.stripArchivedChildren (removeColumns (rootColumns paths) d) =
      removeColumns (rootColumns paths) (n.stripArchivedChildren d) := by
  have hroot : ∀ h ∈ rootColumns paths, h.1 = [] := fun h hh => (mem_rootColumns.1 hh).1
  generalize rootColumns paths = H at hroot ⊢
  induction H generalizing d with
  | nil => rfl
  | cons h H ih =>
    obtain ⟨hh, hH⟩ := forall_mem_cons.1 hroot
    rw [removeColumns, removeColumns, foldl_cons, foldl_cons, ← removeColumns, ih _ hH, hh]
    congr 1
    exact strip_filter_key (fun k => decide (k ≠ h.2)) d

section Page

variable {n : ViewNode} {proj : ColumnProjection} {sortFields : List Path}

variable (n proj sortFields) in
/-- The columns a listing takes out again before it settles the identity. -/
def takenOut : List (Path × String) :=
  rootColumns (projectionAutoIncluded proj sortFields) ++ pageCleanup n proj sortFields

theorem inclusion_pageProjection :
    (pageProjection n proj sortFields).inclusion = proj.inclusion := rfl

/-- What the projection of a listing shows: its helper columns, and what was asked for. -/
theorem shows_pageProjection (h : n.WellFormed) :
    (p ∈ (pageProjection n proj sortFields).paths ↔ proj.inclusion = true) ↔
      p = ["_id"] ∨
        ArchivedHelper n (proj.withHelpers (projectionAutoIncluded proj sortFields)) p ∨
        p ∈ projectionAutoIncluded proj sortFields ∨ (p ∈ proj.paths ↔ proj.inclusion = true) := by
  rw [← shows_withHelpers, ← mem_cleanup_paths h, ← mem_singleton (a := p)]
  exact shows_withHelpers.trans (or_congr_right shows_withHelpers)

theorem nil_not_mem_pageProjection (hp : proj.Resolved n idColumn)
    (hs : ∀ s ∈ sortFields, n.Column s) : [] ∉ (pageProjection n proj sortFields).paths := by
  rw [pageProjection, identityAutoIncluded, mem_withHelpers_of_not_mem (by simp),
    mem_withHelpers_of_not_mem (by simp), mem_withHelpers_of_not_mem]
  · exact hp.nil_not_mem
  · exact fun hn => (hs [] (mem_projectionAutoIncluded.1 hn).1).resolves.ne_nil rfl

/-- The columns a listing takes out stand in segments. -/
theorem column_of_mem_takenOut (h : n.WellFormed) (hs : ∀ s ∈ sortFields, n.Column s)
    {c : Path × String} (hc : c ∈ takenOut n proj sortFields) :
    (∃ m, n.nodeAt c.1 = some m) ∧ n.Column (c.1 ++ [c.2]) := by
  rcases mem_append.1 hc with hc | hc
  · obtain ⟨h1, hmem⟩ := mem_rootColumns.1 hc
    rw [h1]
    exact ⟨⟨n, rfl⟩, hs _ (mem_projectionAutoIncluded.1 hmem).1⟩
  · obtain ⟨⟨-, m, hat, ha⟩, -⟩ := (mem_childArchivedAtAutoIncludes h).1 hc
    exact ⟨⟨m, hat⟩, h.column hat ha⟩

/-- **What a listing serves**: the projection with the helper columns of the document without
archived content, less the columns it takes out. -/
theorem serves_readPageItem_iff (h : n.WellFormed) (hp : proj.Resolved n idColumn)
    (hs : ∀ s ∈ sortFields, n.Column s) (stored wanted : Doc) :
    Serves n (readPageItem n idColumn proj sortFields stored) wanted ↔
      NoCollision (pageProjection n proj sortFields).paths ∧
        n.plain (normalizeIdentity idColumn (proj.keepsID idColumn)
          (removeColumns (takenOut n proj sortFields) (cutFields proj.inclusion
            (pageProjection n proj sortFields).paths (n.stripArchivedChildren stored)))) =
          n.plain wanted := by
  have hnil := nil_not_mem_pageProjection hp hs
  have hkeep : n.KeepsArchivedAt proj.inclusion (pageProjection n proj sortFields).paths :=
    keepsArchivedAt_identity hp.storeID (keepsArchivedAt_cleanup h)
  have hat : ∀ c ∈ takenOut n proj sortFields, ∃ m, n.nodeAt c.1 = some m := fun c hc =>
    (column_of_mem_takenOut h hs hc).1
  have hitem : ∀ d, removeColumns (pageCleanup n proj sortFields) (n.stripArchivedChildren
      ((projectionAutoIncluded proj sortFields).foldl deleteDocPath d)) =
        removeColumns (takenOut n proj sortFields) (n.stripArchivedChildren d) := by
    intro d
    rw [foldl_deleteDocPath, strip_rootColumns, takenOut, removeColumns, removeColumns,
      removeColumns, foldl_append]
  rw [Serves, readPageItem, findProjected]
  split_ifs with hc
  · simp only [Option.map_some, Option.some.injEq, exists_eq_left', hc, true_and]
    rw [hitem, plain_normalizeIdentity hp.storeID hp.viewID, plain_removeColumns hat,
      inclusion_pageProjection, strip_cutFields hnil hkeep, ← plain_removeColumns hat,
      ← plain_normalizeIdentity hp.storeID hp.viewID]
  · simp [hc]

end Page

section Main

variable {n : ViewNode} {proj : ColumnProjection} {sortFields : List Path}

/-- A projection with no path below another one goes inside what its paths lead through. -/
theorem NoCollision.narrowed {paths : List Path} (h : NoCollision paths) {q : Path} (hs : s ∉ paths)
    (hq : q ∈ paths) (hsq : s <+: q) : Narrowed paths s := by
  obtain ⟨t, rfl⟩ := hsq
  refine ⟨⟨t, hq⟩, fun p hp hps => ?_⟩
  have he := h p hp _ hq (hps.trans (prefix_append s t))
  have hsp : s = p := hps.eq_of_length_le (by rw [he]; simp) |>.symm
  exact hs (hsp ▸ hp)

theorem NoCollision.not_above {paths : List Path} (h : NoCollision paths) {t : Path} {c : String}
    (hmem : t ++ [c] ∈ paths) : ∀ q ∈ paths, ¬ q <+: t := by
  intro q hq hqt
  have he := h q hq _ hmem (hqt.trans (prefix_append t [c]))
  have hlen := hqt.length_le
  rw [he, length_append, length_singleton] at hlen
  omega

/-- The segments whose archived column a listing serves are those its projection goes inside, when
every helper can be taken out again. -/
theorem ArchivedHelper.narrowed (hp : proj.Resolved n idColumn) (hs : ∀ s ∈ sortFields, n.Column s)
    (hr : ∀ s ∈ projectionAutoIncluded proj sortFields, Removable n proj s)
    (ha : ArchivedHelper n (proj.withHelpers (projectionAutoIncluded proj sortFields)) p) :
    ∃ s a m, p = s ++ [a] ∧ s ≠ [] ∧ n.nodeAt s = some m ∧ m.archivedAtColumn = some a ∧
      Narrowed proj.paths s := by
  obtain ⟨s, a, m, rfl, hne, hat, ha, hout, ⟨q, hq, hsq⟩, hin⟩ := ha
  refine ⟨s, a, m, rfl, hne, hat, ha, ?_⟩
  by_cases hi : proj.inclusion = true
  · rw [mem_withHelpers_include hi] at hq
    have hsp : s ∉ proj.paths := fun hmem => hout ((mem_withHelpers_include hi).2 (.inl hmem))
    rcases hq with hq | hq
    · exact hp.noCollision.narrowed hsp hq hsq
    · have hcol := hs q (mem_projectionAutoIncluded.1 hq).1
      rcases hr q hq with hlen | ⟨-, t, b, m', rfl, hat', hb, hnar⟩
      · -- a column of the document is not below a segment
        have he : s = q := hsq.eq_of_length_le (hlen ▸ length_pos_iff.2 hne)
        exact absurd (he ▸ prefix_refl s) (hcol.not_above hat)
      · rcases prefix_concat_iff.1 hsq with he | hst
        · exact absurd (he ▸ prefix_refl s) (hcol.not_above hat)
        · obtain ⟨r, hr⟩ := hnar.1
          exact hp.noCollision.narrowed hsp hr (hst.trans (prefix_append t r))
  · have hmem : s ++ [a] ∈ proj.paths := by
      have := hin.resolve_left hi
      exact ((mem_withHelpers_exclude hi).1 this).1
    refine hp.noCollision.narrowed (fun hsp => ?_) hmem (prefix_append s [a])
    have he := hp.noCollision s hsp _ hmem (prefix_append s [a])
    simp at he

section

variable (h : n.WellFormed) (hp : proj.Resolved n idColumn) (hs : ∀ s ∈ sortFields, n.Column s)
  (hr : ∀ s ∈ projectionAutoIncluded proj sortFields, Removable n proj s)
include h hp hs hr

/-- A path that only the listing's projection has, or only it lacks, is the store's identity, a sort
column of the document or an archived column of a segment the projection goes inside. -/
theorem helper_cases (hne : ¬(p ∈ proj.paths ↔ p ∈ (pageProjection n proj sortFields).paths)) :
    p = ["_id"] ∨ (p ∈ projectionAutoIncluded proj sortFields ∧ p.length = 1) ∨
      ∃ s a m, p = s ++ [a] ∧ n.nodeAt s = some m ∧ m.archivedAtColumn = some a ∧
        Narrowed proj.paths s ∧ (s, a) ∈ pageCleanup n proj sortFields := by
  have hcase : p = ["_id"] ∨
      ArchivedHelper n (proj.withHelpers (projectionAutoIncluded proj sortFields)) p ∨
      p ∈ projectionAutoIncluded proj sortFields := by
    by_contra hno
    obtain ⟨hid, hno⟩ := not_or.1 hno
    obtain ⟨harch, hauto⟩ := not_or.1 hno
    have hshows := (shows_pageProjection h).trans
      ((or_iff_right hid).trans ((or_iff_right harch).trans (or_iff_right hauto)))
    tauto
  rcases hcase with hid | harch | hauto
  · exact .inl hid
  · obtain ⟨s, a, m, he, -, hat, ha, hnar⟩ := harch.narrowed hp hs hr
    refine .inr (.inr ⟨s, a, m, he, hat, ha, hnar, ?_⟩)
    obtain ⟨s', a', m', he', hrest⟩ := harch
    obtain ⟨rfl, rfl⟩ := append_inj' (he.symm.trans he') rfl |>.imp_right singleton_inj.1
    exact (mem_childArchivedAtAutoIncludes h).2 ⟨⟨hrest.1, m', hrest.2.1, hrest.2.2.1⟩, hrest.2.2.2⟩
  · by_cases hlen : p.length = 1
    · exact .inr (.inl ⟨hauto, hlen⟩)
    obtain ⟨hi, t, a, m, rfl, hat, ha, hnar⟩ := (hr p hauto).resolve_left hlen
    refine .inr (.inr ⟨t, a, m, rfl, hat, ha, hnar, (mem_childArchivedAtAutoIncludes h).2 ?_⟩)
    have ht : t ≠ [] := by
      rintro rfl
      exact hlen rfl
    obtain ⟨r, hr'⟩ := hnar.1
    refine ⟨⟨ht, m, hat, ha⟩, fun hmem => ?_, ⟨t ++ r, ?_, prefix_append t r⟩, .inl hi⟩
    · rcases (mem_withHelpers_include hi).1 hmem with hmem | hmem
      · exact hnar.2 t hmem (prefix_refl t)
      · exact (hs t (mem_projectionAutoIncluded.1 hmem).1).not_above hat (prefix_refl t)
    · exact (mem_withHelpers_include hi).2 (.inl hr')

theorem noCollision_pageProjection : NoCollision (pageProjection n proj sortFields).paths := by
  have hcol : n.Column ["_id"] := ⟨[], "_id", n, rfl, rfl, hp.storeID⟩
  have hroot : ∀ k, ∀ q ∈ proj.paths, q <+: [k] → q = [k] := fun k q hq hqk =>
    hqk.eq_of_length_le (length_pos_iff.2 (hp.resolves q hq).ne_nil)
  have hkind : ∀ p ∈ (pageProjection n proj sortFields).paths, p ∈ proj.paths ∨
      n.Column p ∧ ∀ q ∈ proj.paths, q <+: p → q = p := by
    intro p hmem
    by_cases hpp : p ∈ proj.paths
    · exact .inl hpp
    right
    rcases helper_cases h hp hs hr (fun hiff => hpp (hiff.2 hmem)) with rfl | ⟨hauto, hlen⟩ | harch
    · exact ⟨hcol, hroot "_id"⟩
    · obtain ⟨k, rfl⟩ := length_eq_one_iff.1 hlen
      exact ⟨hs _ (mem_projectionAutoIncluded.1 hauto).1, hroot k⟩
    · obtain ⟨s, a, m, rfl, hat, ha, hnar, -⟩ := harch
      refine ⟨h.column hat ha, fun q hq hqs => ?_⟩
      rcases prefix_concat_iff.1 hqs with he | hqs
      · exact he
      · exact absurd hqs (hnar.2 q hq)
  have hres : ∀ q ∈ (pageProjection n proj sortFields).paths, n.Resolves q := by
    intro q hq
    rcases hkind q hq with hqp | ⟨hcol, -⟩
    · exact hp.resolves q hqp
    · exact hcol.resolves
  intro p hmem q hq hpq
  rcases hkind p hmem with hpp | ⟨hcol, -⟩
  · rcases hkind q hq with hqp | ⟨-, hpre⟩
    · exact hp.noCollision p hpp q hqp hpq
    · exact hpre p hpp hpq
  · exact hcol.eq_of_above (hres q hq) hpq

omit hs hr in
/-- The store's identity that was fetched is out again, or was asked for. -/
theorem normalizeIdentity_of_lost (hne : ¬(["_id"] ∈ proj.paths ↔
      ["_id"] ∈ (pageProjection n proj sortFields).paths)) (d : Doc) :
    normalizeIdentity idColumn (proj.keepsID idColumn) (d.erase "_id") =
      normalizeIdentity idColumn (proj.keepsID idColumn) d := by
  have hpage : ["_id"] ∈ (pageProjection n proj sortFields).paths ↔ proj.inclusion = true :=
    (shows_pageProjection h).2 (.inl rfl)
  have hkept : proj.keepsID idColumn = false := by
    by_contra hkept
    have hview : [idColumn] ∈ proj.paths ↔ proj.inclusion = true := by
      rw [← beq_iff_eq.1 (eq_true_of_ne_false hkept), decide_eq_true_iff]
    refine hne (Iff.trans ?_ hpage.symm)
    exact ⟨fun hmem => hview.1 (hp.ofStore hmem), fun hi => hp.toStore hi (hview.2 hi)⟩
  rw [hkept]
  simp [normalizeIdentity, AssocMap.erase, filter_filter]

omit hp hs hr in
theorem subset_pageProjection (hi : proj.inclusion = true) :
    proj.paths ⊆ (pageProjection n proj sortFields).paths := fun _ hmem =>
  ((shows_pageProjection h).2 (.inr (.inr (.inr (iff_of_true hmem hi))))).2 hi

omit hp hs hr in
theorem pageProjection_subset (hi : ¬ proj.inclusion = true) :
    (pageProjection n proj sortFields).paths ⊆ proj.paths := fun _ hmem =>
  by_contra fun hout =>
    hi (((shows_pageProjection h).2 (.inr (.inr (.inr (iff_of_false hout hi))))).1 hmem)

/-- What was asked for and what is fetched are parts of one list without collisions. -/
theorem exists_noCollision : ∃ U, NoCollision U ∧ proj.paths ⊆ U ∧
    (pageProjection n proj sortFields).paths ⊆ U := by
  by_cases hi : proj.inclusion = true
  · exact ⟨_, noCollision_pageProjection h hp hs hr, subset_pageProjection h hi, fun _ => id⟩
  · exact ⟨_, hp.noCollision, fun _ => id, pageProjection_subset h hi⟩

/-- Every path on which what was asked for and what is fetched differ is the store's identity or
is taken out again. -/
theorem mem_takenOut_of_ne
    (hne : ¬(p ∈ proj.paths ↔ p ∈ (pageProjection n proj sortFields).paths)) :
    p = ["_id"] ∨ ∃ c ∈ takenOut n proj sortFields, p = c.1 ++ [c.2] := by
  rcases helper_cases h hp hs hr hne with hid | ⟨hauto, hlen⟩ | ⟨s, a, m, he, -, -, -, hc⟩
  · exact .inl hid
  · obtain ⟨k, rfl⟩ := length_eq_one_iff.1 hlen
    exact .inr ⟨([], k), mem_append_left _ (mem_rootColumns.2 ⟨rfl, hauto⟩), rfl⟩
  · exact .inr ⟨(s, a), mem_append_right _ hc, he⟩

section

variable {U : List Path} (hPU : proj.paths ⊆ U)
  (hP'U : (pageProjection n proj sortFields).paths ⊆ U)
include hPU hP'U

omit h hp hs hr in
/-- A column that is fetched and was not asked for is left out. -/
theorem leftOut_of_shown {c : Path × String}
    (hshown : c.1 ++ [c.2] ∈ (pageProjection n proj sortFields).paths ↔ proj.inclusion = true)
    (hlost : ¬(c.1 ++ [c.2] ∈ proj.paths ↔ proj.inclusion = true))
    (hreach : proj.inclusion = true → ∃ t, c.1 ++ t ∈ proj.paths) :
    LeftOut proj.inclusion U proj.paths c := by
  refine ⟨?_, hlost, hreach⟩
  by_cases hi : proj.inclusion = true
  · exact hP'U (hshown.2 hi)
  · exact hPU (by_contra fun hout => hlost (iff_of_false hout hi))

omit h hp hs hr in
theorem leftOut_root {k : String}
    (hshown : [k] ∈ (pageProjection n proj sortFields).paths ↔ proj.inclusion = true)
    (hlost : ¬([k] ∈ proj.paths ↔ proj.inclusion = true)) :
    LeftOut proj.inclusion U proj.paths ([], k) :=
  leftOut_of_shown hPU hP'U hshown hlost fun hi => exists_mem_of_ne_nil _ (proj.narrows hi)

/-- What a listing takes out again was not asked for. -/
theorem leftOut_of_mem_takenOut (hname : ¬ NamesArchivedAt n proj) {c : Path × String}
    (hc : c ∈ takenOut n proj sortFields) : LeftOut proj.inclusion U proj.paths c := by
  rcases mem_append.1 hc with hc | hc
  · obtain ⟨_, k⟩ := c
    obtain ⟨rfl, hauto⟩ := mem_rootColumns.1 hc
    refine leftOut_root hPU hP'U ?_ (mem_projectionAutoIncluded.1 hauto).2.2
    exact (shows_pageProjection h).2 (.inr (.inr (.inl hauto)))
  · have hmem := (mem_cleanup_paths h).1 (mem_map_of_mem hc)
    obtain ⟨s, a, m, he, hne, hat, ha, hnar⟩ := hmem.narrowed hp hs hr
    obtain ⟨rfl, rfl⟩ := append_inj' he rfl |>.imp_right singleton_inj.1
    refine leftOut_of_shown hPU hP'U ((shows_pageProjection h).2 (.inr (.inl hmem))) ?_
      fun _ => hnar.1
    intro hiff
    by_cases hi : proj.inclusion = true
    · exact hname ⟨hi, c.1, c.2, m, hne, hat, ha, hiff.2 hi⟩
    · have hmem' := ((mem_childArchivedAtAutoIncludes h).1 hc).2.2.2.resolve_left hi
      exact hi (hiff.1 ((mem_withHelpers_exclude hi).1 hmem').1)

end

/-- **A listing serves what was asked for when every helper can be taken out again.** -/
theorem serves_readPageItem (hname : ¬ NamesArchivedAt n proj) (stored : Doc) :
    Serves n (readPageItem n idColumn proj sortFields stored)
      (requested n idColumn proj stored) := by
  rw [serves_readPageItem_iff h hp hs]
  refine ⟨noCollision_pageProjection h hp hs hr, congrArg n.plain ?_⟩
  obtain ⟨U, hU, hPU, hP'U⟩ := exists_noCollision h hp hs hr
  have htaken : ∀ c ∈ takenOut n proj sortFields, LeftOut proj.inclusion U proj.paths c :=
    fun c => leftOut_of_mem_takenOut h hp hs hr hPU hP'U hname
  by_cases hid : ["_id"] ∈ proj.paths ↔ ["_id"] ∈ (pageProjection n proj sortFields).paths
  · rw [removeColumns_cutFields hU hP'U (subset_pageProjection h) htaken, requested]
    intro p hne
    exact (mem_takenOut_of_ne h hp hs hr hne).resolve_left fun he => hne (he ▸ hid)
  -- the identity was fetched only, and goes as one more helper
  · have hpage : ["_id"] ∈ (pageProjection n proj sortFields).paths ↔ proj.inclusion = true :=
      (shows_pageProjection h).2 (.inl rfl)
    rw [← normalizeIdentity_of_lost h hp hid, requested]
    congr 1
    refine Eq.trans ?_ (removeColumns_cutFields (H := takenOut n proj sortFields ++ [([], "_id")])
      hU hP'U (subset_pageProjection h) (fun c hc => ?_) (fun p hne => ?_) _)
    · rw [removeColumns, removeColumns, foldl_append]
      rfl
    · rcases mem_append.1 hc with hc | hc
      · exact htaken c hc
      · rw [mem_singleton.1 hc]
        exact leftOut_root hPU hP'U hpage fun hiff => hid (hiff.trans hpage.symm)
    · rcases mem_takenOut_of_ne h hp hs hr hne with he | ⟨c, hc, he⟩
      · exact ⟨([], "_id"), mem_append_right _ (mem_singleton_self _), he⟩
      · exact ⟨c, mem_append_left _ hc, he⟩

end

/-- A read by id serves what was asked for when its projection leaves every segment it goes inside
the archived column. -/
theorem serves_readByID (hp : proj.Resolved n idColumn)
    (hkeep : n.KeepsArchivedAt proj.inclusion proj.paths) (stored : Doc) :
    Serves n (readByID n idColumn proj stored) (requested n idColumn proj stored) := by
  rw [Serves, readByID, findProjected, if_pos hp.noCollision, requested]
  simp only [Option.map_some, Option.some.injEq, exists_eq_left']
  rw [plain_normalizeIdentity hp.storeID hp.viewID, plain_normalizeIdentity hp.storeID hp.viewID,
    strip_cutFields hp.nil_not_mem hkeep]

end Main

/-- A view of customers with a child collection that has an archived state. -/
def customersNode : ViewNode :=
  .mk (some "archived_at") [("dependents", .mk (some "archived_at") [])]

theorem nodeAt_customersNode (h : customersNode.nodeAt s = some m) :
    s = [] ∧ m = customersNode ∨ s = ["dependents"] ∧ m = .mk (some "archived_at") [] := by
  match s with
  | [] =>
    cases h
    exact .inl ⟨rfl, rfl⟩
  | [k] =>
    by_cases hk : k = "dependents"
    · subst hk
      cases h
      exact .inr ⟨rfl, rfl⟩
    · simp [nodeAt, customersNode, embedsByDoc, AssocMap.get, Ne.symm hk] at h
  | k :: j :: s =>
    by_cases hk : k = "dependents"
    · subst hk
      cases h
    · simp [nodeAt, customersNode, embedsByDoc, AssocMap.get, Ne.symm hk] at h

theorem customersNode_wellFormed : customersNode.WellFormed := by
  intro s m hat
  rcases nodeAt_customersNode hat with ⟨-, rfl⟩ | ⟨-, rfl⟩
  all_goals
    refine ⟨by decide, fun a ha => ?_⟩
    cases ha
    decide

/-- Everything but the names of the customers and of their dependents. -/
def withoutNames : ColumnProjection := ⟨false, [["name"], ["dependents", "name"]], nofun⟩

/-- The names of the dependents only. -/
def dependentNames : ColumnProjection := ⟨true, [["dependents", "name"]], fun _ => nofun⟩

theorem resolved_names (proj : ColumnProjection)
    (hpaths : ∀ p ∈ proj.paths, p = ["name"] ∨ p = ["dependents", "name"]) :
    proj.Resolved customersNode "id" where
  resolves := by
    intro p hp
    rcases hpaths p hp with rfl | rfl
    · exact ⟨[], "name", customersNode, rfl, rfl⟩
    · exact ⟨["dependents"], "name", .mk (some "archived_at") [], rfl, rfl⟩
  noCollision := by
    intro p hp q hq hpq
    rcases hpaths p hp with rfl | rfl <;> rcases hpaths q hq with rfl | rfl <;> simp_all
  storeID := rfl
  viewID := rfl
  ofStore := fun hid => by simpa using hpaths _ hid
  toStore := fun _ hid => by simpa using hpaths _ hid

end Omnicore.Queryschema
