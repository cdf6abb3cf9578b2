import Omnicore.Hydrate.Fetch
import Omnicore.Lib.UpToOrder

/-!
# Merging an aggregate

The merge chain turns a root row into the document of its aggregate: the sibling rows flat, the
shared base flat, the base's and the root's children nested under their segments.  Each merge
exists twice, once for a single root with one read per related table, and once for a batch of roots
with one grouped read per related table.  A batch merge changes the documents of its batch in
place, so it is modelled as the change it makes to each of them.

## Main definitions

* `Node`, `Child`, `Aggregate`, `Root` : the schemas the merges walk, with the columns the joins run
  over kept apart from what the merges assign.
* `mergeOwnerSiblings`, `mergeSharedBase`, `mergeSharedBaseChildren`, `mergeOwnChildren` and their
  `Batch` companions.

## Main results

* `mergeOwnerSiblingsBatch_eq`, `mergeSharedBaseBatch_eq` : the flat merges agree.
* `mergeSharedBaseChildrenBatch_upToOrder`, `mergeOwnChildrenBatch_upToOrder` : the nested ones
  agree up to the order of the collections.
-/

namespace Omnicore.Hydrate

open Omnicore.Core Grouping List AssocMap AssocMap.Rel Doc.UpToOrder Option

/-! ### Schemas -/

/-- A table with an id and its sibling tables, which share the id. -/
structure Node extends Source where
  siblings : List Source := []
  id_declared : idColumn ≠ ""
  id_plain : idColumn ∉ columns fields
  sibling_plain : ∀ sib ∈ siblings, idColumn ∉ columns sib.fields

/-- A child table and the segment of its collection. -/
structure Child extends Node where
  segment : String
  parent_plain : parentIDColumn ∉ columns fields

/-- The watermark of the root row. -/
def docRevisionField : String := "_revision"

/-- The watermark of the shared base row. -/
def baseRevisionField : String := "_base_revision"

/-- A table with child tables: a root, or a shared base with its native children. -/
structure Aggregate extends Node where
  children : List Child := []
  segment_ne_id : ∀ c ∈ children, c.segment ≠ idColumn
  id_unmanaged : idColumn ∉ docRevisionField :: revision.toList

/-- The base columns that do not land on a role's document: the id, and each managed column of a
kind the role declares itself. -/
def sharedBaseSkipSet (base role : Source) : List String :=
  base.idColumn :: (if role.archivedAt.isSome then base.archivedAt.toList else []) ++
    (if role.createdAt.isSome then base.createdAt.toList else []) ++
    (if role.updatedAt.isSome then base.updatedAt.toList else [])

/-- The keys of a role's document that come from its shared base. -/
def baseKeys (role : Source) (base : Aggregate) : List String :=
  baseRevisionField :: base.readColumns.filter (· ∉ sharedBaseSkipSet base.toSource role) ++
    base.children.map Child.segment

/-- The document keys assigned by the merges that run before the root's own children are nested. -/
def assignedKeys (r : Node) (sharedBase : Option Aggregate) : List String :=
  r.siblings.flatMap Source.readColumns ++ sharedBase.toList.flatMap (baseKeys r.toSource)

variable {c : String}

theorem segment_mem_assignedKeys {r : Node} {base : Aggregate}
    (h : c ∈ base.children.map Child.segment) : c ∈ assignedKeys r (some base) := by
  simp only [assignedKeys, baseKeys, toList_some, flatMap_cons, flatMap_nil, append_nil, mem_append]
  exact .inr (.inr h)

/-- A root table, possibly a role of a shared base that its parent column names.  The columns the
joins run over are no keys of what is merged. -/
structure Root extends Aggregate where
  sharedBase : Option Aggregate := none
  parent_plain : parentIDColumn ∉ columns fields
  parent_unmanaged : parentIDColumn ∉ docRevisionField :: revision.toList
  id_kept : idColumn ∉ assignedKeys toNode sharedBase
  parent_kept : parentIDColumn ∉ assignedKeys toNode sharedBase

/-! ### Flat merges -/

/-- Move the revision column of a row into a watermark of the document. -/
def remapRevision (s : Source) (watermark : String) (doc : Doc) : Doc :=
  match s.revision with
  | none => doc
  | some rc =>
    match doc.get rc with
    | none => doc
    | some v => (doc.set watermark v).erase rc

/-- Copy a row into a document, some columns aside. -/
def mergeRow (skip : List String) (row doc : Doc) : Doc :=
  doc.setAll (row.filter fun p => decide (p.1 ∉ skip))

/-- Copy a row into a document if there is one. -/
def mergeFound (skip : List String) (found : Option Doc) (doc : Doc) : Doc :=
  match found with
  | none => doc
  | some row => mergeRow skip row doc

section

variable (q : Querier) (includeArchived : Bool)

/-- Merge the sibling rows of an owner flat into its document. -/
def mergeOwnerSiblings (owner : Node) (pkVal : String) (doc : Doc) : Doc :=
  owner.siblings.foldl (fun doc sib =>
    mergeFound [owner.idColumn] (fetchRow q sib owner.idColumn none includeArchived pkVal) doc) doc

/-- What the sibling merge of a batch does to each of its documents. -/
def mergeOwnerSiblingsBatch (owner : Node) (docs : List Doc) (doc : Doc) : Doc :=
  let keys := collectKeys docs owner.idColumn
  owner.siblings.foldl (fun doc sib =>
    let grouped := fetchInGrouped q sib owner.idColumn none includeArchived keys
    mergeFound [owner.idColumn] (group grouped (keyOf doc owner.idColumn)).head? doc) doc

variable (schema : Root) (docs : List Doc) (doc : Doc)

/-- Merge the shared base row of a role flat into its document. -/
def mergeSharedBase : Doc :=
  match schema.sharedBase with
  | none => doc
  | some base =>
    match doc.get schema.parentIDColumn with
    | none | some .null => doc
    | some fk =>
      let row := fetchRow q base.toSource base.idColumn none includeArchived (Write.scalarString fk)
      mergeFound (sharedBaseSkipSet base.toSource schema.toSource)
        (row.map (remapRevision base.toSource baseRevisionField)) doc

/-- What the shared-base merge of a batch does to each of its documents. -/
def mergeSharedBaseBatch : Doc :=
  match schema.sharedBase with
  | none => doc
  | some base =>
    let keys := collectKeys docs schema.parentIDColumn
    let grouped := fetchInGrouped q base.toSource base.idColumn none includeArchived keys
    let row := (group grouped (keyOf doc schema.parentIDColumn)).head?
    mergeFound (sharedBaseSkipSet base.toSource schema.toSource)
      (row.map (remapRevision base.toSource baseRevisionField)) doc

/-! ### Nested merges -/

/-- A collection as a segment value. -/
def collection (rows : List Doc) : Value := .arr (rows.map .doc)

/-- Nest the groups of some child tables in a document that holds a key. -/
def nestGroups (children : List Child) (groups : Child → AssocMap String (List Doc)) (col : String)
    (doc : Doc) : Doc :=
  children.foldl (fun doc child =>
    if keyOf doc col = "" then doc
    else doc.set child.segment (collection (group (groups child) (keyOf doc col)))) doc

/-- Nest the native children of a role's shared base. -/
def mergeSharedBaseChildren : Doc :=
  match schema.sharedBase with
  | none => doc
  | some base =>
    match doc.get schema.parentIDColumn with
    | none | some .null => doc
    | some baseID =>
      base.children.foldl (fun doc bc =>
        doc.set bc.segment (collection (fetchWhere q bc.toSource bc.parentIDColumn bc.archivedAt
          includeArchived (Write.scalarString baseID)))) doc

/-- What nesting the base children of a batch does to each of its documents. -/
def mergeSharedBaseChildrenBatch : Doc :=
  match schema.sharedBase with
  | none => doc
  | some base =>
    let keys := collectKeys docs schema.parentIDColumn
    nestGroups base.children (fun bc =>
      fetchInGrouped q bc.toSource bc.parentIDColumn bc.archivedAt includeArchived keys)
      schema.parentIDColumn doc

/-- Nest the children of an aggregate, each with its siblings. -/
def mergeOwnChildren (schema : Aggregate) (doc : Doc) : Doc :=
  match doc.get schema.idColumn with
  | none | some .null => doc
  | some pkVal =>
    schema.children.foldl (fun doc child =>
      let rows := fetchWhere q child.toSource child.parentIDColumn child.archivedAt
        includeArchived (Write.scalarString pkVal)
      let rows := rows.map (mergeOwnerSiblingsBatch q includeArchived child.toNode rows)
      doc.set child.segment (collection rows)) doc

/-- What nesting the children of a batch does to each of its documents.  The siblings of all the
children of the batch are merged in one go, into the rows the groups hold. -/
def mergeOwnChildrenBatch (schema : Aggregate) (docs : List Doc) (doc : Doc) : Doc :=
  let keys := collectKeys docs schema.idColumn
  nestGroups schema.children (fun child =>
    let grouped := fetchInGrouped q child.toSource child.parentIDColumn child.archivedAt
      includeArchived keys
    let allChild := grouped.flatMap Prod.snd
    grouped.map fun g =>
      (g.1, g.2.map (mergeOwnerSiblingsBatch q includeArchived child.toNode allChild)))
    schema.idColumn doc

end

/-! ### The columns the joins run over -/

theorem get_mergeFound {skip : List String} {found : Option Doc} {doc : Doc}
    (h : ∀ row ∈ found, c ∈ keys row → c ∈ skip) :
    (mergeFound skip found doc).get c = doc.get c := by
  cases found with
  | none => rfl
  | some row =>
    refine get_setAll_of_not_mem doc fun hc => ?_
    obtain ⟨p, hp, rfl⟩ := mem_map.1 hc
    obtain ⟨hrow, hskip⟩ := mem_filter.1 hp
    exact of_decide_eq_true hskip (h row rfl (mem_map_of_mem hrow))

theorem get_remapRevision {s : Source} {watermark : String} (h : c ∉ watermark :: s.revision.toList)
    (doc : Doc) : (remapRevision s watermark doc).get c = doc.get c := by
  rw [mem_cons, not_or] at h
  unfold remapRevision
  cases hrev : s.revision with
  | none => rfl
  | some rc =>
    have hrc : rc ≠ c := fun he => h.2 (by simp [hrev, he])
    simp only
    split
    · rfl
    · rw [get_erase, if_neg hrc, get_set_ne _ _ (Ne.symm h.1)]

theorem mem_keys_remapRevision {s : Source} {watermark : String} {doc : Doc}
    (h : c ∈ keys (remapRevision s watermark doc)) : c ∈ keys doc ∨ c = watermark := by
  unfold remapRevision at h
  split at h
  · exact .inl h
  · split at h
    · exact .inl h
    · obtain ⟨p, hp, rfl⟩ := mem_map.1 h
      exact mem_keys_set.1 (mem_map_of_mem (mem_of_mem_filter hp))

theorem foldl_congr_of_inv {α β : Type} {P : β → Prop} {f g : β → α → β} {l : List α}
    (h : ∀ b, P b → ∀ a ∈ l, f b a = g b a ∧ P (f b a)) {b : β} (hb : P b) :
    l.foldl f b = l.foldl g b := by
  induction l generalizing b with
  | nil => rfl
  | cons a l ih =>
    obtain ⟨heq, hP⟩ := h b hb a mem_cons_self
    rw [foldl_cons, foldl_cons, ← heq]
    exact ih (fun b hb a ha => h b hb a (mem_cons_of_mem _ ha)) hP

section

variable {q : Querier} {includeArchived : Bool} {docs : List Doc} {doc : Doc}

/-- The key column of a document holds an id, unless it is absent or NULL. -/
def HoldsKey (doc : Doc) (col : String) : Prop :=
  doc.get col = none ∨ doc.get col = some .null ∨ ∃ k, k ≠ "" ∧ doc.get col = some (.str k)

variable {schema : Root} {c col : String}

theorem HoldsKey.congr {d e : Doc} (h : d.get col = e.get col) (he : HoldsKey e col) :
    HoldsKey d col := by
  unfold HoldsKey
  rwa [h]

theorem HoldsKey.toDocument {s : Source} {row : Row} (h : HoldsKey row c)
    (hplain : c ∉ columns s.fields) (keyCol : String) : HoldsKey (toDocument s keyCol row) c := by
  by_cases hc : c ∈ readColsWithKey s keyCol
  · have hget := get_toDocument hc hplain row
    rcases h with h | h | ⟨k, hk, h⟩ <;> rw [h] at hget
    · exact .inr (.inl hget)
    · exact .inr (.inl hget)
    · exact .inr (.inr ⟨k, hk, hget⟩)
  · refine .inl ((get_eq_none_iff _ c).2 ?_)
    rwa [keys_toDocument]

theorem not_mem_collectKeys_empty : "" ∉ collectKeys docs col :=
  fun h => (mem_collectKeys.1 h).2 rfl

theorem mem_collectKeys_of_mem (hdoc : doc ∈ docs) (hk : keyOf doc col ≠ "") :
    keyOf doc col ∈ collectKeys docs col :=
  mem_collectKeys.2 ⟨⟨doc, hdoc, rfl⟩, hk⟩

/-! ### The flat merges agree -/

/-- The sibling tables of an owner have its primary key as theirs. -/
def Node.SharesKey (tables : String → List Row) (owner : Node) : Prop :=
  ∀ sib ∈ owner.siblings, UniqueKey tables sib.table owner.idColumn

/-- **Merging siblings in a batch** merges the siblings of each document that has a key. -/
theorem mergeOwnerSiblingsBatch_eq {owner : Node} (hsibs : owner.SharesKey q.tables)
    (hdoc : doc ∈ docs) :
    mergeOwnerSiblingsBatch q includeArchived owner docs doc =
      if keyOf doc owner.idColumn = "" then doc
      else mergeOwnerSiblings q includeArchived owner (keyOf doc owner.idColumn) doc := by
  -- the id column is never copied, so every sibling is looked up under the same key
  have hkept : ∀ (found : Option Doc) (d : Doc),
      keyOf (mergeFound [owner.idColumn] found d) owner.idColumn = keyOf d owner.idColumn :=
    fun found d => keyOf_congr (get_mergeFound fun _ _ _ => mem_singleton.2 rfl)
  split_ifs with hk
  · refine (foldl_congr_of_inv (g := fun d _ => d) (P := fun d => keyOf d owner.idColumn = "")
      (fun d hd sib hsib => ?_) hk).trans (foldl_fixed ..)
    simp only
    rw [hkept, hd, group_fetchInGrouped_of_not_mem (owner.sibling_plain sib hsib)
      (not_mem_collectKeys_empty)]
    exact ⟨rfl, rfl⟩
  · refine foldl_congr_of_inv (P := fun d => keyOf d owner.idColumn = keyOf doc owner.idColumn)
      (fun d hd sib hsib => ?_) rfl
    simp only
    rw [hkept, hd, head?_group_fetchInGrouped (owner.sibling_plain sib hsib)
      ((hsibs sib hsib).onePerKey _) (mem_collectKeys_of_mem hdoc hk)]
    exact ⟨rfl, rfl⟩

/-- **Merging the shared base in a batch** merges it into each document. -/
theorem mergeSharedBaseBatch_eq (hdoc : doc ∈ docs)
    (hbases : ∀ base ∈ schema.sharedBase, UniqueKey q.tables base.table base.idColumn)
    (hkey : schema.sharedBase ≠ none → HoldsKey doc schema.parentIDColumn) :
    mergeSharedBaseBatch q includeArchived schema docs doc =
      mergeSharedBase q includeArchived schema doc := by
  unfold mergeSharedBaseBatch mergeSharedBase
  cases hbase : schema.sharedBase with
  | none => rfl
  | some base =>
    simp only
    obtain hget | hget | ⟨k, hk, hget⟩ := hkey (by simp [hbase])
    iterate 2
      · have hempty : keyOf doc schema.parentIDColumn = "" := by rw [keyOf, hget]
        rw [hempty, group_fetchInGrouped_of_not_mem base.id_plain not_mem_collectKeys_empty, hget]
        rfl
    · have hkeyOf := keyOf_of_get hget
      have hmem := mem_collectKeys_of_mem hdoc (hkeyOf ▸ hk)
      rw [head?_group_fetchInGrouped base.id_plain ((hbases base hbase).onePerKey _) hmem, hkeyOf,
        hget]
      rfl

/-! ### The nested merges agree -/

variable {groups : Child → AssocMap String (List Doc)}

theorem nestGroups_eq {children : List Child} (hseg : ∀ c ∈ children, c.segment ≠ col)
    (hk : keyOf doc col ≠ "") :
    nestGroups children groups col doc = children.foldl (fun d c =>
      d.set c.segment (collection (group (groups c) (keyOf doc col)))) doc := by
  refine foldl_congr_of_inv (P := fun d => keyOf d col = keyOf doc col) (fun d hd c hc => ?_) rfl
  rw [hd, if_neg hk]
  exact ⟨rfl, (keyOf_congr (get_set_ne d _ (hseg c hc))).trans hd⟩

theorem nestGroups_of_empty {children : List Child} (hk : keyOf doc col = "") :
    nestGroups children groups col doc = doc := by
  refine (foldl_congr_of_inv (g := fun d _ => d) (P := fun d => keyOf d col = "")
    (fun d hd c _ => ?_) hk).trans (foldl_fixed ..)
  rw [if_pos hd]
  exact ⟨rfl, hd⟩

/-- **Nesting base children in a batch** nests them in each document. -/
theorem mergeSharedBaseChildrenBatch_upToOrder (hdoc : doc ∈ docs)
    (hkey : schema.sharedBase ≠ none → HoldsKey doc schema.parentIDColumn) :
    Doc.UpToOrder (mergeSharedBaseChildrenBatch q includeArchived schema docs doc)
      (mergeSharedBaseChildren q includeArchived schema doc) := by
  unfold mergeSharedBaseChildrenBatch mergeSharedBaseChildren
  cases hbase : schema.sharedBase with
  | none => exact refl doc
  | some base =>
    simp only
    have hseg : ∀ c ∈ base.children, c.segment ≠ schema.parentIDColumn := by
      intro c hc he
      have hkept := schema.parent_kept
      rw [hbase] at hkept
      exact hkept (segment_mem_assignedKeys (he ▸ mem_map_of_mem hc))
    obtain hget | hget | ⟨k, hk, hget⟩ := hkey (by simp [hbase])
    iterate 2
      · have hempty : keyOf doc schema.parentIDColumn = "" := by rw [keyOf, hget]
        rw [nestGroups_of_empty hempty, hget]
        exact refl doc
    · have hkeyOf := keyOf_of_get hget
      have hmem := mem_collectKeys_of_mem hdoc (hkeyOf ▸ hk)
      rw [nestGroups_eq hseg (hkeyOf ▸ hk), hget, hkeyOf]
      refine foldl_set (refl doc) fun bc _ => ?_
      exact .arr ((group_fetchInGrouped_perm bc.parent_plain (hkeyOf ▸ hmem)).map _)

/-- **Nesting children in a batch** nests them in each document, their siblings included. -/
theorem mergeOwnChildrenBatch_upToOrder {schema : Aggregate} {e : Doc} {k : String}
    (hsibs : ∀ c ∈ schema.children, c.toNode.SharesKey q.tables) (hdoc : doc ∈ docs)
    (hrel : Doc.UpToOrder doc e) (hk : k ≠ "") (hget : e.get schema.idColumn = some (.str k)) :
    Doc.UpToOrder (mergeOwnChildrenBatch q includeArchived schema docs doc)
      (mergeOwnChildren q includeArchived schema e) := by
  have hkeyOf : keyOf doc schema.idColumn = k := keyOf_of_get (hrel.get_str.2 hget)
  have hmem := mem_collectKeys_of_mem hdoc (hkeyOf ▸ hk)
  unfold mergeOwnChildrenBatch mergeOwnChildren
  rw [nestGroups_eq schema.segment_ne_id (hkeyOf ▸ hk), hget, hkeyOf]
  rw [hkeyOf] at hmem
  refine foldl_set hrel fun child hchild => .arr (List.Perm.map _ ?_)
  -- a child row belongs to its collection and to the batch, and its siblings only depend on it
  have hperm : (group (fetchInGrouped q child.toSource child.parentIDColumn child.archivedAt
      includeArchived (collectKeys docs schema.idColumn)) k).Perm _ :=
    group_fetchInGrouped_perm child.parent_plain hmem
  rw [group_map]
  refine (hperm.map _).trans (List.Perm.of_eq (map_congr_left fun row hrow => ?_))
  rw [mergeOwnerSiblingsBatch_eq (hsibs child hchild)
    (mem_flatMap_of_mem_group (hperm.mem_iff.2 hrow))]
  exact (mergeOwnerSiblingsBatch_eq (hsibs child hchild) hrow).symm

theorem remapRevision_upToOrder {s : Source} {watermark : String} {d e : Doc}
    (h : Doc.UpToOrder d e) :
    Doc.UpToOrder (remapRevision s watermark d) (remapRevision s watermark e) := by
  unfold remapRevision
  cases s.revision with
  | none => exact h
  | some rc =>
    have hrel := get h rc
    simp only
    generalize d.get rc = v at hrel
    generalize e.get rc = w at hrel
    cases hrel with
    | none => exact h
    | some hv => exact erase (set h hv)

/-! ### What the merges leave alone -/

theorem get_mergeOwnerSiblings {owner : Node} (h : c ∉ owner.siblings.flatMap Source.readColumns)
    (pkVal : String) :
    (mergeOwnerSiblings q includeArchived owner pkVal doc).get c = doc.get c := by
  refine foldlRecOn (motive := fun d : Doc => d.get c = doc.get c) owner.siblings _ rfl
    fun d hd sib hsib => ?_
  rw [get_mergeFound, hd]
  intro row hrow hc
  obtain ⟨r, -, rfl⟩ := map_eq_some_iff.1 hrow
  rw [keys_toDocument, mem_readColsWithKey] at hc
  rcases hc with hc | rfl
  · exact absurd (mem_flatMap.2 ⟨sib, hsib, hc⟩) h
  · exact mem_singleton.2 rfl

theorem get_mergeSharedBase (h : c ∉ assignedKeys schema.toNode schema.sharedBase) (doc : Doc) :
    (mergeSharedBase q includeArchived schema doc).get c = doc.get c := by
  unfold mergeSharedBase
  cases hbase : schema.sharedBase with
  | none => rfl
  | some base =>
    simp only
    split
    · rfl
    · rfl
    · rw [get_mergeFound]
      intro row hrow hc
      obtain ⟨r, hr, rfl⟩ := map_eq_some_iff.1 hrow
      obtain ⟨r, -, rfl⟩ := map_eq_some_iff.1 hr
      by_contra hskip
      refine h ?_
      rw [assignedKeys, hbase]
      simp only [toList_some, flatMap_cons, flatMap_nil, append_nil,
        baseKeys, mem_append, mem_cons, mem_filter]
      rcases mem_keys_remapRevision hc with hc | hc
      · rw [keys_toDocument, mem_readColsWithKey] at hc
        rcases hc with hc | rfl
        · exact .inr (.inl (.inr ⟨hc, decide_eq_true hskip⟩))
        · exact absurd (by simp [sharedBaseSkipSet]) hskip
      · exact .inr (.inl (.inl hc))

theorem get_mergeSharedBaseChildren (h : c ∉ assignedKeys schema.toNode schema.sharedBase) :
    (mergeSharedBaseChildren q includeArchived schema doc).get c = doc.get c := by
  unfold mergeSharedBaseChildren
  cases hbase : schema.sharedBase with
  | none => rfl
  | some base =>
    simp only
    split
    · rfl
    · rfl
    · rw [hbase] at h
      exact get_foldl_set _ _ _ _ fun hc => h (segment_mem_assignedKeys hc)

theorem get_mergeOwnChildren {schema : Aggregate} (h : c ∉ schema.children.map Child.segment) :
    (mergeOwnChildren q includeArchived schema doc).get c = doc.get c := by
  unfold mergeOwnChildren
  split
  · rfl
  · rfl
  · exact get_foldl_set _ _ _ _ h

end

end Omnicore.Hydrate
