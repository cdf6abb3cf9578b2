import Omnicore.Hydrate.Merge

/-!
# Composing in batches

The composer turns root rows into view documents.  `compose` hydrates one root with one read per
related table; `composeBatch` hydrates a whole list of roots with one grouped read per related
table and chunk, which is what a rebuild runs.  The two are separate implementations of the same
nested join.

## Main definitions

* `View` : a view without embeds, rooted at an entity or at a shared base with its roles.
* `compose`, `composeBatch` : the two compositions.
* `View.Stored` : the key constraints of the tables.

## Main results

* `composeRows_matches` : composing fetched rows together is composing each of them.
* `composeBatch_eq_compose` : a batch holds exactly the documents of its ids.
-/

namespace Omnicore.Query.Composer

open Omnicore.Core Grouping Hydrate List Querier Select AssocMap

/-- A role of a base-rooted view and the segment of its sub-document. -/
structure RoleDef where
  schema : Root
  segment : String

/-- What a view is rooted at. -/
inductive ViewRoot where
  | entity (root : Root)
  | sharedBase (base : Aggregate) (roles : List RoleDef)
      (segment_ne_id : ∀ r ∈ roles, r.segment ≠ base.idColumn)

/-- A view without embeds. -/
structure View where
  root : ViewRoot
  deleteOnArchive : Bool := false

namespace View

/-- The schema of the root table. -/
def schema (v : View) : Aggregate :=
  match v.root with
  | .entity root => root.toAggregate
  | .sharedBase base _ _ => base

/-- Archived rows compose unless the view deletes on archive. -/
def includeArchived (v : View) : Bool := !v.deleteOnArchive

end View

/-! ### One root -/

section

variable (q : Querier) (includeArchived : Bool)

/-- The row that represents a role of an identity: the active one, otherwise the most recently
archived one where archived rows compose. -/
def fetchRoleRow (r : RoleDef) (baseID : String) : Option Doc :=
  match r.schema.archivedAt with
  | none => fetchRow q r.schema.toSource r.schema.parentIDColumn none true baseID
  | some archivedCol =>
    (fetchRow q r.schema.toSource r.schema.parentIDColumn (some archivedCol) false baseID).or
      (if includeArchived then
        fetchLatestArchived q r.schema.toSource r.schema.parentIDColumn baseID archivedCol
      else none)

/-- The sub-document of a role row. -/
def composeRole (role : Root) (roleRow : Doc) : Doc :=
  remapRevision role.toSource docRevisionField <|
    mergeOwnChildren q includeArchived role.toAggregate <|
      mergeOwnerSiblings q includeArchived role.toNode
        (Write.scalarString ((roleRow.get role.idColumn).getD .null)) roleRow

/-- The segment of a role, null for an absent one. -/
def roleSegment (r : RoleDef) (baseID : String) : Value :=
  match fetchRoleRow q includeArchived r baseID with
  | none => .null
  | some roleRow => .doc (composeRole q includeArchived r.schema roleRow)

/-- Fill the document of an identity: its native children and one sub-document per role. -/
def composeBaseRootedRow (base : Aggregate) (roles : List RoleDef) (baseID : String) (row : Doc) :
    Doc :=
  roles.foldl (fun row r => row.set r.segment (roleSegment q includeArchived r baseID))
    (mergeOwnChildren q includeArchived base row)

/-- Fill the document of an entity. -/
def composeEntityRow (root : Root) (rootID : String) (row : Doc) : Doc :=
  mergeOwnChildren q includeArchived root.toAggregate <|
    mergeSharedBaseChildren q includeArchived root <|
      mergeSharedBase q includeArchived root <|
        mergeOwnerSiblings q includeArchived root.toNode rootID row

end

variable (q : Querier) (v : View)

/-- Fill the document of a fetched root row. -/
def composeRow (rootID : String) (row : Doc) : Doc :=
  let row := remapRevision v.schema.toSource docRevisionField row
  match v.root with
  | .entity root => composeEntityRow q v.includeArchived root rootID row
  | .sharedBase base roles _ => composeBaseRootedRow q v.includeArchived base roles rootID row

/-- The document of one root, absent when its row is gone or hidden. -/
def compose (rootID : String) : Option Doc :=
  (fetchRow q v.schema.toSource v.schema.idColumn v.schema.archivedAt v.includeArchived rootID).map
    (composeRow q v rootID)

/-! ### A batch of roots -/

section

variable (q : Querier) (includeArchived : Bool)

/-- The chosen role row of each base: the first active one, otherwise the most recently archived
one where archived rows compose. -/
def roleByBase (r : RoleDef) (baseIDs : List String) : AssocMap String Doc :=
  let role := r.schema.toSource
  match role.archivedAt with
  | none =>
    let grouped := fetchInGrouped q role role.parentIDColumn none true baseIDs
    baseIDs.filterMap fun bid => (group grouped bid).head?.map (bid, ·)
  | some archivedCol =>
    let grouped := fetchInGrouped q role role.parentIDColumn (some archivedCol) false baseIDs
    let active : AssocMap String Doc :=
      baseIDs.filterMap fun bid => (group grouped bid).head?.map (bid, ·)
    let missing := baseIDs.filter fun bid => (active.get bid).isNone
    active ++
      if includeArchived then
        missing.filterMap fun bid =>
          (fetchLatestArchived q role role.parentIDColumn bid archivedCol).map (bid, ·)
      else []

/-- What filling one role of a batch does to each of its documents. -/
def composeRoleBatched (base : Aggregate) (r : RoleDef) (rows : List Doc) (row : Doc) : Doc :=
  let chosenByBase := roleByBase q includeArchived r (collectKeys rows base.idColumn)
  let chosen := chosenByBase.map Prod.snd
  let merged := chosen.map (mergeOwnerSiblingsBatch q includeArchived r.schema.toNode chosen)
  let finish := fun rr => remapRevision r.schema.toSource docRevisionField <|
    mergeOwnChildrenBatch q includeArchived r.schema.toAggregate merged <|
      mergeOwnerSiblingsBatch q includeArchived r.schema.toNode chosen rr
  row.set r.segment <|
    match chosenByBase.get (keyOf row base.idColumn) with
    | none => .null
    | some rr => .doc (finish rr)

/-- Fill the documents of a batch of identities. -/
def composeBaseRootedRowsBatched (base : Aggregate) (roles : List RoleDef) (rows : List Doc) :
    List Doc :=
  roles.foldl (fun rows r => rows.map (composeRoleBatched q includeArchived base r rows))
    (rows.map (mergeOwnChildrenBatch q includeArchived base rows))

/-- Fill the documents of a batch of entities. -/
def composeEntityRowsBatched (root : Root) (rows : List Doc) : List Doc :=
  let rows := rows.map (mergeOwnerSiblingsBatch q includeArchived root.toNode rows)
  let rows := rows.map (mergeSharedBaseBatch q includeArchived root rows)
  let rows := rows.map (mergeSharedBaseChildrenBatch q includeArchived root rows)
  rows.map (mergeOwnChildrenBatch q includeArchived root.toAggregate rows)

end

/-- Fill the documents of fetched root rows. -/
def composeRows (rows : List Doc) : List Doc :=
  let rows := rows.map (remapRevision v.schema.toSource docRevisionField)
  match v.root with
  | .entity root => composeEntityRowsBatched q v.includeArchived root rows
  | .sharedBase base roles _ => composeBaseRootedRowsBatched q v.includeArchived base roles rows

/-- The documents of a list of roots. -/
def composeBatch (ids : List String) : List Doc :=
  composeRows q v
    (fetchByIDs q v.schema.toSource v.schema.idColumn v.schema.archivedAt v.includeArchived ids)

/-! ### The keys of the tables -/

/-- A primary key: every row of the table holds an id of its own. -/
def PrimaryKey (tables : String → List Row) (s : Source) : Prop :=
  (∀ row ∈ tables s.table, ∃ id, id ≠ "" ∧ rowKey row s.idColumn = some id) ∧
    UniqueKey tables s.table s.idColumn

/-- The siblings of an aggregate and of its children have the primary keys of their owners. -/
def SharesKeys (tables : String → List Row) (a : Aggregate) : Prop :=
  a.toNode.SharesKey tables ∧ ∀ c ∈ a.children, c.toNode.SharesKey tables

/-- The keys of a role: the primary keys, and at most one active row for each identity. -/
structure RoleDef.Stored (tables : String → List Row) (r : RoleDef) : Prop where
  primary : PrimaryKey tables r.schema.toSource
  siblings : SharesKeys tables r.schema.toAggregate
  oneActive : OnePerKey tables r.schema.table r.schema.parentIDColumn
    (archiveGate r.schema.archivedAt false)

/-- The key constraints of a view's tables: the primary keys of the root and of the siblings; of an
entity with a shared base that of the base, and a link to it; of a shared base those of its
roles. -/
def View.Stored (tables : String → List Row) : Prop :=
  PrimaryKey tables v.schema.toSource ∧ SharesKeys tables v.schema ∧
    match v.root with
    | .entity root =>
      (∀ base ∈ root.sharedBase, UniqueKey tables base.table base.idColumn) ∧
        (root.sharedBase ≠ none → ∀ row ∈ tables root.table, HoldsKey row root.parentIDColumn)
    | .sharedBase _ roles _ => ∀ r ∈ roles, r.Stored tables

/-! ### Role rows -/

section

variable {q : Querier} {includeArchived : Bool}

theorem get_filterMap_of_mem {ks : List String} {f : String → Option Doc} {k : String}
    (hk : k ∈ ks) : get (ks.filterMap fun j => (f j).map (j, ·)) k = f k := by
  rw [get_filterMap_ofKeys, if_pos hk]

variable {r : RoleDef} {bid : String}

/-- **The role row of a batch** is the one chosen for its base alone. -/
theorem get_roleByBase {baseIDs : List String} (hst : r.Stored q.tables) (h : bid ∈ baseIDs) :
    (roleByBase q includeArchived r baseIDs).get bid = fetchRoleRow q includeArchived r bid := by
  have hone := hst.oneActive
  unfold roleByBase fetchRoleRow
  cases harch : r.schema.archivedAt with
  | none =>
    rw [harch] at hone
    -- without an archived state every row is active
    have hone : OnePerKey q.tables r.schema.table _ (archiveGate none true) := hone
    simp only [harch]
    rw [get_filterMap_of_mem h, head?_group_fetchInGrouped r.schema.parent_plain hone h]
  | some archivedCol =>
    rw [harch] at hone
    simp only [harch]
    rw [get_append, get_filterMap_of_mem h, head?_group_fetchInGrouped r.schema.parent_plain hone h]
    cases hactive : fetchRow q r.schema.toSource r.schema.parentIDColumn (some archivedCol) false
      bid with
    | some active => rfl
    | none =>
      split_ifs
      · refine get_filterMap_of_mem (mem_filter.2 ⟨h, ?_⟩)
        rw [get_filterMap_of_mem h, head?_group_fetchInGrouped r.schema.parent_plain hone h,
          hactive]
        rfl
      · rfl

theorem exists_row_of_fetchRoleRow {rr : Doc} (h : fetchRoleRow q includeArchived r bid = some rr) :
    ∃ row ∈ q.tables r.schema.table,
      rr = toDocument r.schema.toSource r.schema.parentIDColumn row := by
  have hrow : ∀ archivedCol inc, fetchRow q r.schema.toSource r.schema.parentIDColumn archivedCol
      inc bid = some rr → ∃ row ∈ q.tables r.schema.table,
        rr = toDocument r.schema.toSource r.schema.parentIDColumn row := by
    intro archivedCol inc h
    obtain ⟨row, hrow, rfl⟩ := Option.map_eq_some_iff.1 h
    exact ⟨row, (mem_select.1 (mem_of_mem_head? hrow)).1, rfl⟩
  unfold fetchRoleRow at h
  split at h
  · exact hrow _ _ h
  · rcases Option.or_eq_some_iff.1 h with h | ⟨-, h⟩
    · exact hrow _ _ h
    · split_ifs at h
      obtain ⟨row, hmax, rfl⟩ := Option.map_eq_some_iff.1 h
      exact ⟨row, (mem_select.1 (argmax_mem hmax)).1, rfl⟩

theorem get_id_of_fetchRoleRow {rr : Doc} (hpk : PrimaryKey q.tables r.schema.toSource)
    (h : fetchRoleRow q includeArchived r bid = some rr) :
    ∃ id, id ≠ "" ∧ rr.get r.schema.idColumn = some (.str id) := by
  obtain ⟨row, hrow, rfl⟩ := exists_row_of_fetchRoleRow h
  obtain ⟨id, hid, hkey⟩ := hpk.1 row hrow
  refine ⟨id, hid, ?_⟩
  have hcol := Source.mem_readColumns_of_id r.schema.id_declared
  rw [get_toDocument (mem_readColsWithKey.2 (.inl hcol)) r.schema.id_plain, rowKey_eq_some.1 hkey]
  rfl

theorem composeRole_upToOrder {role : Root} {chosen : List Doc} {rr : Doc}
    (hsibs : SharesKeys q.tables role.toAggregate) (hrr : rr ∈ chosen) {id : String} (hid : id ≠ "")
    (hget : rr.get role.idColumn = some (.str id)) :
    Doc.UpToOrder
      (remapRevision role.toSource docRevisionField <|
        mergeOwnChildrenBatch q includeArchived role.toAggregate
          (chosen.map (mergeOwnerSiblingsBatch q includeArchived role.toNode chosen))
          (mergeOwnerSiblingsBatch q includeArchived role.toNode chosen rr))
      (composeRole q includeArchived role rr) := by
  have hkey : keyOf rr role.idColumn = id := keyOf_of_get hget
  have hsib : mergeOwnerSiblingsBatch q includeArchived role.toNode chosen rr =
      mergeOwnerSiblings q includeArchived role.toNode id rr := by
    rw [mergeOwnerSiblingsBatch_eq hsibs.1 hrr, hkey, if_neg hid]
  unfold composeRole
  rw [hget]
  refine remapRevision_upToOrder (mergeOwnChildrenBatch_upToOrder hsibs.2 (mem_map_of_mem hrr) ?_
    hid ((get_mergeOwnerSiblings (fun h => role.id_kept (mem_append_left _ h)) _).trans hget))
  rw [hsib]
  exact Doc.UpToOrder.refl _

/-- **Filling a role of a batch** fills it in each document. -/
theorem composeRoleBatched_upToOrder {base : Aggregate}
    (hst : r.Stored q.tables) {rows : List Doc} {row e : Doc}
    (hrow : row ∈ rows) (hrel : Doc.UpToOrder row e) (hbid : bid ≠ "")
    (hget : e.get base.idColumn = some (.str bid)) :
    Doc.UpToOrder (composeRoleBatched q includeArchived base r rows row)
      (e.set r.segment (roleSegment q includeArchived r bid)) := by
  have hkey : keyOf row base.idColumn = bid := keyOf_of_get (hrel.get_str.2 hget)
  have hmem : bid ∈ collectKeys rows base.idColumn :=
    hkey ▸ mem_collectKeys_of_mem hrow (hkey ▸ hbid)
  have hchosen : (roleByBase q includeArchived r (collectKeys rows base.idColumn)).get bid =
      fetchRoleRow q includeArchived r bid := get_roleByBase hst hmem
  unfold composeRoleBatched roleSegment
  simp only [hkey, hchosen]
  cases hrr : fetchRoleRow q includeArchived r bid with
  | none => exact AssocMap.Rel.set hrel (.refl _)
  | some rr =>
    obtain ⟨id, hid, hget⟩ := get_id_of_fetchRoleRow hst.primary hrr
    rw [hrr] at hchosen
    have hmem : rr ∈ (roleByBase q includeArchived r (collectKeys rows base.idColumn)).map
        Prod.snd := mem_map_of_mem (mem_of_get hchosen)
    exact AssocMap.Rel.set hrel (.doc (composeRole_upToOrder hst.siblings hmem hid hget))

/-- **Filling the roles of a batch** fills them in each document.  The batch is the image of the
rows it started from, so the induction over the roles carries the map. -/
theorem foldl_composeRoleBatched_upToOrder {base : Aggregate} {roles : List RoleDef}
    (hseg : ∀ r ∈ roles, r.segment ≠ base.idColumn)
    (hst : ∀ r ∈ roles, r.Stored q.tables) {rows : List Doc}
    {batch single : Doc → Doc} {key : Doc → String}
    (hrows : ∀ row ∈ rows, Doc.UpToOrder (batch row) (single row) ∧ key row ≠ "" ∧
      (single row).get base.idColumn = some (.str (key row))) :
    ∃ batch' : Doc → Doc,
      roles.foldl (fun rows r => rows.map (composeRoleBatched q includeArchived base r rows))
        (rows.map batch) = rows.map batch' ∧
      ∀ row ∈ rows, Doc.UpToOrder (batch' row)
        (roles.foldl (fun d r => d.set r.segment (roleSegment q includeArchived r (key row)))
          (single row)) := by
  induction roles generalizing batch single with
  | nil => exact ⟨batch, rfl, fun row hrow => (hrows row hrow).1⟩
  | cons r roles ih =>
    rw [foldl_cons, map_map]
    refine ih (fun r hr => hseg r (mem_cons_of_mem _ hr))
      (fun r hr => hst r (mem_cons_of_mem _ hr)) fun row hrow => ?_
    obtain ⟨hrel, hkey, hget⟩ := hrows row hrow
    refine ⟨composeRoleBatched_upToOrder (hst r mem_cons_self) (mem_map_of_mem hrow) hrel
      hkey hget, hkey, ?_⟩
    rw [get_set_ne _ _ (hseg r mem_cons_self), hget]

end

/-! ### Batches of rows -/

section

variable {q : Querier} {includeArchived : Bool} {rows : List Doc}

/-- A batch whose documents are those of its rows, up to order. -/
def Matches (batch rows : List Doc) (single : Doc → Doc) : Prop :=
  ∃ f : Doc → Doc, batch = rows.map f ∧ ∀ row ∈ rows, Doc.UpToOrder (f row) (single row)

theorem composeBaseRootedRowsBatched_matches {base : Aggregate} {roles : List RoleDef}
    (hsibs : SharesKeys q.tables base) (hseg : ∀ r ∈ roles, r.segment ≠ base.idColumn)
    (hst : ∀ r ∈ roles, r.Stored q.tables)
    (hids : ∀ row ∈ rows, ∃ id, id ≠ "" ∧ row.get base.idColumn = some (.str id)) :
    Matches (composeBaseRootedRowsBatched q includeArchived base roles rows) rows fun row =>
      composeBaseRootedRow q includeArchived base roles (keyOf row base.idColumn) row := by
  refine foldl_composeRoleBatched_upToOrder hseg hst fun row hrow => ?_
  obtain ⟨id, hid, hget⟩ := hids row hrow
  have hsegs : base.idColumn ∉ base.children.map Child.segment := by
    intro h
    obtain ⟨c, hc, he⟩ := mem_map.1 h
    exact base.segment_ne_id c hc he
  refine ⟨mergeOwnChildrenBatch_upToOrder hsibs.2 hrow (Doc.UpToOrder.refl row) hid hget, ?_, ?_⟩
  · rwa [keyOf_of_get hget]
  · rw [get_mergeOwnChildren hsegs, keyOf_of_get hget, hget]

theorem composeEntityRowsBatched_matches {root : Root}
    (hsiblings : SharesKeys q.tables root.toAggregate)
    (hbases : ∀ base ∈ root.sharedBase, UniqueKey q.tables base.table base.idColumn)
    (hids : ∀ row ∈ rows, ∃ id, id ≠ "" ∧ row.get root.idColumn = some (.str id))
    (hlinks : root.sharedBase ≠ none → ∀ row ∈ rows, HoldsKey row root.parentIDColumn) :
    Matches (composeEntityRowsBatched q includeArchived root rows) rows fun row =>
      composeEntityRow q includeArchived root (keyOf row root.idColumn) row := by
  have hsibs : ∀ {c}, c ∉ assignedKeys root.toNode root.sharedBase →
      c ∉ root.siblings.flatMap Source.readColumns :=
    fun hc h => hc (mem_append_left _ h)
  have hget1 : ∀ {c}, c ∉ assignedKeys root.toNode root.sharedBase → ∀ row : Doc,
      (mergeOwnerSiblings q includeArchived root.toNode (keyOf row root.idColumn) row).get c =
        row.get c :=
    fun hc row => get_mergeOwnerSiblings (hsibs hc) _
  -- the two flat merges are exact
  have hsib : rows.map (mergeOwnerSiblingsBatch q includeArchived root.toNode rows) =
      rows.map fun row => mergeOwnerSiblings q includeArchived root.toNode
        (keyOf row root.idColumn) row := by
    refine map_congr_left fun row hrow => ?_
    obtain ⟨id, hid, hget⟩ := hids row hrow
    rw [mergeOwnerSiblingsBatch_eq hsiblings.1 hrow, keyOf_of_get hget, if_neg hid]
  have hbase : ∀ docs : List Doc, docs = (rows.map fun row => mergeOwnerSiblings q includeArchived
      root.toNode (keyOf row root.idColumn) row) →
      docs.map (mergeSharedBaseBatch q includeArchived root docs) =
        docs.map (mergeSharedBase q includeArchived root) := by
    rintro docs rfl
    refine map_congr_left fun doc hdoc => mergeSharedBaseBatch_eq hdoc hbases fun hlink => ?_
    obtain ⟨row, hrow, rfl⟩ := mem_map.1 hdoc
    exact (hlinks hlink row hrow).congr (hget1 root.parent_kept row)
  unfold composeEntityRowsBatched
  rw [hsib]
  simp only
  rw [hbase _ rfl, map_map]
  refine ⟨_, by rw [map_map, map_map], fun row hrow => ?_⟩
  -- the nested ones hold up to the order of the collections
  obtain ⟨id, hid, hget⟩ := hids row hrow
  refine mergeOwnChildrenBatch_upToOrder hsiblings.2
    (mem_map_of_mem (mem_map_of_mem (mem_map_of_mem hrow)))
    (mergeSharedBaseChildrenBatch_upToOrder (mem_map_of_mem (mem_map_of_mem hrow))
      fun hlink => ?_) hid ?_
  · refine (hlinks hlink row hrow).congr ?_
    exact (get_mergeSharedBase root.parent_kept _).trans (hget1 root.parent_kept row)
  · rw [get_mergeSharedBaseChildren root.id_kept, get_mergeSharedBase root.id_kept,
      hget1 root.id_kept, hget]

end

/-- **Composing fetched rows together is composing each of them.** -/
theorem composeRows_matches {q : Querier} {v : View} (hst : v.Stored q.tables) {rows : List Row}
    (hrows : ∀ row ∈ rows, row ∈ q.tables v.schema.table) :
    Matches (composeRows q v (rows.map (toDocument v.schema.toSource v.schema.idColumn)))
      (rows.map (toDocument v.schema.toSource v.schema.idColumn)) fun doc =>
        composeRow q v (keyOf doc v.schema.idColumn) doc := by
  obtain ⟨docs, hdocs⟩ : ∃ docs, docs =
      (rows.map (toDocument v.schema.toSource v.schema.idColumn)).map
        (remapRevision v.schema.toSource docRevisionField) := ⟨_, rfl⟩
  have hget : ∀ doc : Doc, (remapRevision v.schema.toSource docRevisionField doc).get
      v.schema.idColumn = doc.get v.schema.idColumn :=
    get_remapRevision v.schema.id_unmanaged
  have hdoc : ∀ doc ∈ docs, ∃ row ∈ rows, doc = remapRevision v.schema.toSource docRevisionField
      (toDocument v.schema.toSource v.schema.idColumn row) := by
    intro doc hdoc
    rw [hdocs, map_map] at hdoc
    obtain ⟨row, hrow, he⟩ := mem_map.1 hdoc
    exact ⟨row, hrow, he.symm⟩
  have hids : ∀ doc ∈ docs, ∃ id, id ≠ "" ∧ doc.get v.schema.idColumn = some (.str id) := by
    intro doc hmem
    obtain ⟨row, hrow, rfl⟩ := hdoc doc hmem
    obtain ⟨id, hid, hkey⟩ := hst.1.1 row (hrows row hrow)
    exact ⟨id, hid, by rw [hget, get_toDocument_key v.schema.id_plain hkey]⟩
  -- the watermark is no key column, so a batch over the remapped rows is one over the rows
  have hremap : ∀ {batch : List Doc} (g : String → Doc → Doc),
      Matches batch docs (fun doc => g (keyOf doc v.schema.idColumn) doc) →
      Matches batch (rows.map (toDocument v.schema.toSource v.schema.idColumn)) fun doc =>
        g (keyOf doc v.schema.idColumn) (remapRevision v.schema.toSource docRevisionField doc) := by
    rintro batch g ⟨f, rfl, hf⟩
    refine ⟨f ∘ remapRevision v.schema.toSource docRevisionField, by rw [hdocs, map_map],
      fun doc hmem => ?_⟩
    have hrel := hf _ (hdocs ▸ mem_map_of_mem hmem)
    simp only [keyOf_congr (hget doc)] at hrel
    exact hrel
  unfold composeRows composeRow
  rw [← hdocs]
  obtain ⟨root, deleteOnArchive⟩ := v
  cases root with
  | entity root =>
    refine hremap (composeEntityRow q _ root)
      (composeEntityRowsBatched_matches hst.2.1 hst.2.2.1 hids fun hlink doc hmem => ?_)
    obtain ⟨row, hrow, rfl⟩ := hdoc doc hmem
    have hholds := (hst.2.2.2 hlink row (hrows row hrow)).toDocument root.parent_plain root.idColumn
    exact hholds.congr (get_remapRevision root.parent_unmanaged _)
  | sharedBase base roles hseg =>
    exact hremap (composeBaseRootedRow q _ base roles)
      (composeBaseRootedRowsBatched_matches hst.2.1 hseg hst.2.2 hids)

/-! ### Batches of ids -/

section

variable {q : Querier} {v : View} {row : Row} {id : String}

/-- The statement that reads roots by id. -/
def rootSelect (v : View) (ids : List String) : Select :=
  ⟨v.schema.table, v.schema.idColumn, ids, archiveGate v.schema.archivedAt v.includeArchived⟩

/-- The rows a batch reads, chunk by chunk. -/
def batchRows (q : Querier) (v : View) (ids : List String) : List Row :=
  (chunks maxInClauseSize ids).flatMap fun chunk => q.select (rootSelect v chunk)

theorem select_eq_singleton (hst : v.Stored q.tables) (hrow : row ∈ q.select (rootSelect v [id])) :
    q.select (rootSelect v [id]) = [row] := by
  have hperm := q.select_perm (rootSelect v [id])
  have hnodup : (q.select (rootSelect v [id])).Nodup :=
    hperm.nodup_iff.2 ((List.Nodup.of_map _ hst.1.2).filter _)
  have hkey : ∀ r ∈ q.select (rootSelect v [id]), r ∈ q.tables v.schema.table ∧
      rowKey r v.schema.idColumn = some id := by
    intro r hr
    obtain ⟨htable, hadmits⟩ := mem_select.1 hr
    obtain ⟨k, hk, hkey, -⟩ := admits_iff.1 hadmits
    exact ⟨htable, hkey.trans (congrArg some (mem_singleton.1 hk))⟩
  refine perm_singleton.1 ((perm_ext_iff_of_nodup hnodup (nodup_singleton row)).2
    fun r => ⟨fun hr => mem_singleton.2 ?_, fun hr => mem_singleton.1 hr ▸ hrow⟩)
  exact inj_on_of_nodup_map hst.1.2 (hkey r hr).1 (hkey row hrow).1
    ((hkey r hr).2.trans (hkey row hrow).2.symm)

theorem mem_batchRows {ids : List String} :
    row ∈ batchRows q v ids ↔ ∃ id ∈ ids, row ∈ q.select (rootSelect v [id]) := by
  have hchunk : ∀ {chunk id}, id ∈ chunk → rowKey row v.schema.idColumn = some id →
      (row ∈ q.select (rootSelect v chunk) ↔ row ∈ q.select (rootSelect v [id])) := by
    intro chunk id hid hkey
    rw [mem_select, mem_select]
    refine and_congr Iff.rfl ?_
    simp [rootSelect, admits, hkey, hid]
  constructor
  · intro h
    obtain ⟨chunk, hmem, hrow⟩ := mem_flatMap.1 h
    obtain ⟨id, hid, hkey, -⟩ := admits_iff.1 (mem_select.1 hrow).2
    refine ⟨id, ?_, (hchunk hid hkey).1 hrow⟩
    rw [← flatten_chunks maxInClauseSize ids]
    exact mem_flatten_of_mem hmem hid
  · rintro ⟨id, hid, hrow⟩
    rw [← flatten_chunks maxInClauseSize ids] at hid
    obtain ⟨chunk, hmem, hid⟩ := mem_flatten.1 hid
    obtain ⟨k, hk, hkey, -⟩ := admits_iff.1 (mem_select.1 hrow).2
    rw [mem_singleton.1 hk] at hkey
    exact mem_flatMap.2 ⟨chunk, hmem, (hchunk hid hkey).2 hrow⟩

section

variable (hst : v.Stored q.tables)
include hst

theorem compose_of_mem (hrow : row ∈ q.select (rootSelect v [id])) :
    compose q v id = some (composeRow q v
      (keyOf (toDocument v.schema.toSource v.schema.idColumn row) v.schema.idColumn)
      (toDocument v.schema.toSource v.schema.idColumn row)) := by
  obtain ⟨k, hk, hkey, -⟩ := admits_iff.1 (mem_select.1 hrow).2
  rw [mem_singleton.1 hk] at hkey
  have hselect := select_eq_singleton hst hrow
  unfold rootSelect at hselect
  rw [compose, fetchRow, hselect, keyOf_of_get (get_toDocument_key v.schema.id_plain hkey)]
  rfl

theorem nodup_flatMap_select {idLists : List (List String)} (h : idLists.flatten.Nodup) :
    (idLists.flatMap fun ids => q.select (rootSelect v ids)).Nodup := by
  rw [nodup_flatten] at h
  refine nodup_flatMap.2 ⟨fun ids _ => ?_, h.2.imp fun {ids ids'} hdisj row hrow hrow' => ?_⟩
  · exact (q.select_perm _).nodup_iff.2 ((List.Nodup.of_map _ hst.1.2).filter _)
  · obtain ⟨k, hk, hkey, -⟩ := admits_iff.1 (mem_select.1 hrow).2
    obtain ⟨k', hk', hkey', -⟩ := admits_iff.1 (mem_select.1 hrow').2
    cases hkey.symm.trans hkey'
    exact hdisj hk hk'

theorem batchRows_perm {ids : List String} (hids : ids.Nodup) :
    (batchRows q v ids).Perm (ids.flatMap fun id => q.select (rootSelect v [id])) := by
  have hsingle : ids.flatMap (fun id => q.select (rootSelect v [id])) =
      (ids.map fun id => [id]).flatMap fun ids => q.select (rootSelect v ids) := by
    rw [flatMap_map]
  refine (perm_ext_iff_of_nodup (nodup_flatMap_select hst ?_) ?_).2 fun row => ?_
  · rwa [flatten_chunks]
  · rw [hsingle]
    refine nodup_flatMap_select hst ?_
    rwa [← flatMap_def, flatMap_singleton']
  · exact mem_batchRows.trans mem_flatMap.symm

theorem flatMap_select_eq_filterMap (ids : List String) :
    ((ids.flatMap fun id => q.select (rootSelect v [id])).map
      (toDocument v.schema.toSource v.schema.idColumn)).map
        (fun doc => composeRow q v (keyOf doc v.schema.idColumn) doc) =
      ids.filterMap (compose q v) := by
  rw [map_map, map_flatMap, filterMap_eq_flatMap_toList]
  refine congrArg (fun f => ids.flatMap f) (funext fun id => ?_)
  cases hsel : q.select (rootSelect v [id]) with
  | nil =>
    unfold rootSelect at hsel
    rw [compose, fetchRow, hsel]
    rfl
  | cons row rows =>
    have hrow : row ∈ q.select (rootSelect v [id]) := hsel ▸ mem_cons_self
    have hnil := (select_eq_singleton hst hrow).symm.trans hsel
    cases hnil
    rw [compose_of_mem hst hrow]
    rfl

end

end

/-- **A batch holds exactly the documents of its ids**, up to the order of the documents and of
the collections inside them: every document of the batch is the composed document of one of the
ids, every id that composes to a document has it in the batch, and ids without repetition have
each document once. -/
theorem composeBatch_eq_compose (q : Querier) (v : View) (hst : v.Stored q.tables)
    (ids : List String) :
    (∀ d ∈ composeBatch q v ids, ∃ id ∈ ids, ∃ e, compose q v id = some e ∧ Doc.UpToOrder d e) ∧
      (∀ id ∈ ids, ∀ e, compose q v id = some e → ∃ d ∈ composeBatch q v ids, Doc.UpToOrder d e) ∧
      (ids.Nodup → ∃ es, es.Perm (ids.filterMap (compose q v)) ∧
        List.Forall₂ Doc.UpToOrder (composeBatch q v ids) es) := by
  have hdocs : fetchByIDs q v.schema.toSource v.schema.idColumn v.schema.archivedAt
      v.includeArchived ids =
        (batchRows q v ids).map (toDocument v.schema.toSource v.schema.idColumn) := by
    rw [batchRows, map_flatMap]
    rfl
  have htable : ∀ row ∈ batchRows q v ids, row ∈ q.tables v.schema.table := by
    intro row hrow
    obtain ⟨id, -, hsel⟩ := mem_batchRows.1 hrow
    exact (mem_select.1 hsel).1
  obtain ⟨f, hf, hrel⟩ := composeRows_matches hst htable
  rw [composeBatch, hdocs, hf]
  refine ⟨fun d hd => ?_, fun id hid e he => ?_, fun hnodup => ?_⟩
  · obtain ⟨doc, hdoc, rfl⟩ := mem_map.1 hd
    have hdoc' := hdoc
    obtain ⟨row, hrow, rfl⟩ := mem_map.1 hdoc'
    obtain ⟨id, hid, hsel⟩ := mem_batchRows.1 hrow
    exact ⟨id, hid, _, compose_of_mem hst hsel, hrel _ hdoc⟩
  · obtain ⟨doc, hfetch, rfl⟩ := Option.map_eq_some_iff.1 he
    obtain ⟨row, hhead, rfl⟩ := Option.map_eq_some_iff.1 hfetch
    have hsel : row ∈ q.select (rootSelect v [id]) := mem_of_mem_head? hhead
    have hdoc := mem_map_of_mem (f := toDocument v.schema.toSource v.schema.idColumn)
      (mem_batchRows.2 ⟨id, hid, hsel⟩)
    rw [compose_of_mem hst hsel] at he
    refine ⟨_, mem_map_of_mem hdoc, ?_⟩
    rw [← Option.some.inj he]
    exact hrel _ hdoc
  · refine ⟨_, (flatMap_select_eq_filterMap hst ids) ▸
      ((batchRows_perm hst hnodup).map _).map _, ?_⟩
    rw [forall₂_map_left_iff, forall₂_map_right_iff, forall₂_same]
    exact hrel

/-! ### A sample view -/

/-- The addresses of a person, shared by its roles. -/
def addresses : Child where
  table := "addresses"
  idColumn := "id"
  parentIDColumn := "person_id"
  fields := [⟨"city", none⟩]
  archivedAt := some "archived_at"
  segment := "Addresses"
  id_declared := by decide
  id_plain := by decide
  sibling_plain := by simp
  parent_plain := by decide

/-- Persons, an identity several roles share. -/
def persons : Aggregate where
  table := "persons"
  idColumn := "id"
  fields := [⟨"name", none⟩]
  revision := some "revision"
  children := [addresses]
  id_declared := by decide
  id_plain := by decide
  sibling_plain := by simp
  segment_ne_id := by simp [addresses]
  id_unmanaged := by decide

/-- Students, with a sibling table for their records. -/
def students : Root where
  table := "students"
  idColumn := "id"
  parentIDColumn := "person_id"
  fields := [⟨"course", none⟩]
  revision := some "revision"
  siblings := [{ table := "records", fields := [⟨"grade", none⟩] }]
  sharedBase := some persons
  id_declared := by decide
  id_plain := by decide
  sibling_plain := by simp [columns]
  segment_ne_id := by simp
  id_unmanaged := by decide
  parent_plain := by decide
  parent_unmanaged := by decide
  id_kept := by decide +kernel
  parent_kept := by decide +kernel

/-- One student with a record and two addresses, one without a record. -/
def campusTables (table : String) : List Row :=
  match table with
  | "persons" => [[("id", .str "p"), ("name", .str "Ann"), ("revision", .int 3)],
      [("id", .str "r"), ("name", .str "Rui"), ("revision", .int 1)]]
  | "students" => [[("id", .str "s"), ("person_id", .str "p"), ("course", .str "logic")],
      [("id", .str "t"), ("person_id", .str "r"), ("course", .str "sets")]]
  | "records" => [[("id", .str "s"), ("grade", .int 9)]]
  | "addresses" => [[("id", .str "a"), ("person_id", .str "p"), ("city", .str "Lisbon")],
      [("id", .str "b"), ("person_id", .str "p"), ("city", .str "Porto")],
      [("id", .str "c"), ("person_id", .str "r"), ("city", .str "Faro")]]
  | _ => []

/-- The view of the students. -/
def campus : View := { root := .entity students }

/-- An engine that lists the addresses of a person one way in a batch and the other way alone. -/
theorem campus_composed_together :
    campus.Stored campusTables ∧ ["s", "t", "u"].Nodup ∧
      ∃ es, es.Perm (["s", "t", "u"].filterMap (compose (alternating campusTables) campus)) ∧
        List.Forall₂ Doc.UpToOrder
          (composeBatch (alternating campusTables) campus ["s", "t", "u"]) es := by
  have hst : campus.Stored campusTables := by
    have hkeys : ∀ table ∈ ["students", "records", "persons"],
        ((campusTables table).map (rowKey · "id")).Nodup := by decide +kernel
    have hrows : ∀ row ∈ campusTables "students", ∃ id p, id ≠ "" ∧ rowKey row "id" = some id ∧
        p ≠ "" ∧ row.get "person_id" = some (.str p) := by
      simp only [campusTables, forall_mem_cons, not_mem_nil, false_implies, implies_true, and_true]
      exact ⟨⟨"s", "p", by decide, rfl, by decide, rfl⟩, "t", "r", by decide, rfl, by decide, rfl⟩
    refine ⟨⟨fun row hrow => ?_, hkeys "students" (by simp)⟩, ⟨fun sib hsib => ?_, nofun⟩,
      fun base hbase => ?_, fun _ row hrow => .inr (.inr ?_)⟩
    · obtain ⟨id, -, hid, hkey, -⟩ := hrows row hrow
      exact ⟨id, hid, hkey⟩
    · rw [mem_singleton.1 hsib]
      exact hkeys "records" (by simp)
    · obtain rfl := Option.mem_some_iff.1 hbase
      exact hkeys "persons" (by simp)
    · obtain ⟨-, p, -, -, hp, hget⟩ := hrows row hrow
      exact ⟨p, hp, hget⟩
  exact ⟨hst, by decide,
    (composeBatch_eq_compose (alternating campusTables) campus hst _).2.2 (by decide)⟩

end Omnicore.Query.Composer
