import Mathlib.Data.List.MinMax
import Omnicore.Lib.Grouping
import Omnicore.Write.OutboxPayload

/-!
# Reading rows

The hydrator reads rows out of the relational store as column-keyed documents.  One key is read
with an equality, many keys with `IN` lists of bounded size whose rows are grouped in memory.  SQL
leaves the order of a result open, so a `Querier` may list the selected rows in any order, another
one for each statement.

## Main definitions

* `Querier` : the tables of one database state and how the engine lists a selection.
* `Source` : what a fetch reads of a table schema.
* `fetchRow`, `fetchWhere`, `fetchByIDs`, `fetchLatestArchived`, `fetchInGrouped` : the reads.

## Main results

* `head?_group_fetchInGrouped` : the first row of a group is the row of the key, where there is at
  most one.
* `group_fetchInGrouped_perm` : a group is what the read of its key alone lists.
-/

namespace Omnicore.Hydrate

open Omnicore.Core Grouping List

/-! ### The relational engine -/

/-- A physical row: the values of its columns. -/
abbrev Row := Fields

/-- The id in a key column of a row; a NULL holds none. -/
def rowKey (row : Row) (col : String) : Option String :=
  match row.get col with
  | some (.str k) => some k
  | _ => none

variable {col k keyCol c : String} {row : Row}

theorem rowKey_eq_some : rowKey row col = some k ↔ row.get col = some (.str k) := by
  unfold rowKey
  split <;> simp_all

/-- The archive predicate of a statement. -/
inductive Gate where
  | any
  | isNull (col : String)
  | isNotNull (col : String)

/-- A row passes the archive predicate. -/
def Gate.admits : Gate → Row → Bool
  | .any, _ => true
  | .isNull col, row => (row.get col).getD .null = .null
  | .isNotNull col, row => (row.get col).getD .null ≠ .null

/-- A keyed statement: the rows of a table whose key column is in a list. -/
structure Select where
  table : String
  keyCol : String
  keys : List String
  gate : Gate

open Select

/-- A row is selected. -/
def Select.admits (q : Select) (row : Row) : Bool :=
  (rowKey row q.keyCol).any (· ∈ q.keys) && q.gate.admits row

theorem Select.admits_iff {q : Select} :
    q.admits row = true ↔
      ∃ k ∈ q.keys, rowKey row q.keyCol = some k ∧ q.gate.admits row = true := by
  unfold admits
  cases rowKey row q.keyCol <;> simp

theorem Select.admits_and_key {q : Select} (hk : k ∈ q.keys) :
    (q.admits row && decide (rowKey row q.keyCol = some k)) =
      { q with keys := [k] }.admits row := by
  unfold admits
  cases hr : rowKey row q.keyCol with
  | none => simp
  | some j =>
    by_cases hj : j = k
    · subst hj
      simp [hk]
    · simp [hj]

/-- The tables of a database state, and how the engine lists the rows of a statement. -/
structure Querier where
  tables : String → List Row
  select : Select → List Row
  select_perm : ∀ q, (select q).Perm ((tables q.table).filter q.admits)

/-- The key column of a table is unique. -/
def UniqueKey (tables : String → List Row) (table keyCol : String) : Prop :=
  ((tables table).map (rowKey · keyCol)).Nodup

/-- At most one of the rows that pass the archive predicate holds each key. -/
def OnePerKey (tables : String → List Row) (table keyCol : String) (gate : Gate) : Prop :=
  ∀ k, ((tables table).filter (Select.mk table keyCol [k] gate).admits).length ≤ 1

theorem UniqueKey.onePerKey {tables : String → List Row} {table : String}
    (h : UniqueKey tables table keyCol) (gate : Gate) : OnePerKey tables table keyCol gate := by
  intro k
  have hnodup := h.sublist (filter_sublist.map (rowKey · keyCol) :
    ((tables table).filter (Select.mk table keyCol [k] gate).admits).map _ <+ _)
  have hall : ∀ o ∈ ((tables table).filter (Select.mk table keyCol [k] gate).admits).map
      (rowKey · keyCol), o = some k := by
    intro o ho
    obtain ⟨row, hrow, rfl⟩ := mem_map.1 ho
    obtain ⟨j, hj, hkey, -⟩ := admits_iff.1 (mem_filter.1 hrow).2
    exact hkey.trans (congrArg some (mem_singleton.1 hj))
  rw [eq_replicate_of_mem hall, nodup_replicate, length_map] at hnodup
  exact hnodup

namespace Querier

/-- An engine that lists the rows of one key in the order of the table, those of several the other
way round. -/
def alternating (tables : String → List Row) : Querier where
  tables := tables
  select q :=
    if q.keys.length = 1 then (tables q.table).filter q.admits
    else ((tables q.table).filter q.admits).reverse
  select_perm q := by
    split_ifs
    · exact List.Perm.refl _
    · exact reverse_perm _

theorem mem_select {q : Querier} {st : Select} {row : Row} :
    row ∈ q.select st ↔ row ∈ q.tables st.table ∧ st.admits row = true := by
  rw [(q.select_perm st).mem_iff, mem_filter]

theorem filter_select_perm (q : Querier) (st : Select) {k : String} (hk : k ∈ st.keys) :
    ((q.select st).filter fun row => rowKey row st.keyCol = some k).Perm
      (q.select { st with keys := [k] }) := by
  have hrows : ((q.tables st.table).filter st.admits).filter
      (fun row => rowKey row st.keyCol = some k) =
        (q.tables st.table).filter { st with keys := [k] }.admits := by
    rw [filter_filter]
    refine filter_congr fun row _ => ?_
    rw [Bool.and_comm]
    exact admits_and_key hk
  have hperm := (q.select_perm st).filter fun row => rowKey row st.keyCol = some k
  rw [hrows] at hperm
  exact hperm.trans (q.select_perm _).symm

end Querier

/-! ### Rows as documents -/

/-- What a fetch reads of a table schema.  A sibling declares no id, and a schema without a parent
no parent column. -/
structure Source where
  table : String
  idColumn : String := ""
  /-- The link of an aggregate child to its root, or of a role to its shared base. -/
  parentIDColumn : String := ""
  fields : List SchemaField
  /-- The columns that back a Go bool. -/
  isBool : String → Bool := fun _ => false
  createdAt : Option String := none
  updatedAt : Option String := none
  archivedAt : Option String := none
  revision : Option String := none

namespace Source

/-- The physical columns of the table, in reading order. -/
def readColumns (s : Source) : List String :=
  uniq ((s.idColumn :: columns s.fields ++ s.parentIDColumn :: (s.createdAt.toList ++
    s.updatedAt.toList ++ s.archivedAt.toList ++ s.revision.toList)).filter (· ≠ ""))

/-- The mapped columns that back a Go bool. -/
def boolColumns (s : Source) : List String := (columns s.fields).filter s.isBool

theorem mem_readColumns_of_id {s : Source} (h : s.idColumn ≠ "") : s.idColumn ∈ s.readColumns := by
  simp [readColumns, h]

end Source

variable {s : Source}

/-- The columns of a keyed read: those of the table and the key it is grouped by. -/
def readColsWithKey (s : Source) (keyCol : String) : List String :=
  if keyCol ∈ s.readColumns then s.readColumns else s.readColumns ++ [keyCol]

theorem mem_readColsWithKey : c ∈ readColsWithKey s keyCol ↔ c ∈ s.readColumns ∨ c = keyCol := by
  unfold readColsWithKey
  split_ifs with h
  · constructor
    · exact .inl
    · rintro (hc | rfl)
      · exact hc
      · exact h
  · simp

/-- A number in a boolean column is the boolean of an engine without one. -/
def coerceBool : Value → Value
  | .int n => .bool (n ≠ 0)
  | v => v

/-- Restore the booleans of a scanned row. -/
def coerceTypes (s : Source) (doc : Doc) : Doc :=
  doc.map fun p => (p.1, if p.1 ∈ s.boolColumns then coerceBool p.2 else p.2)

/-- What every fetch does to a scanned row: coercion, then redaction. -/
def finishRow (s : Source) (doc : Doc) : Doc := redactSyncColumns s.fields (coerceTypes s doc)

/-- A selected row as a document. -/
def toDocument (s : Source) (keyCol : String) (row : Row) : Doc :=
  finishRow s ((readColsWithKey s keyCol).map fun c => (c, (row.get c).getD .null))

theorem redactValue_of_not_mem {fields : List SchemaField} (h : c ∉ columns fields) (v : Value) :
    redactValue fields c v = v := by
  have hnone : fields.find? (·.column = c) = none := by
    rw [find?_eq_none]
    intro f hf he
    exact h (mem_map.2 ⟨f, hf, by simpa using he⟩)
  rw [redactValue, hnone]

theorem get_toDocument (hc : c ∈ readColsWithKey s keyCol) (hplain : c ∉ columns s.fields)
    (row : Row) : (toDocument s keyCol row).get c = some ((row.get c).getD .null) := by
  have hbool : c ∉ s.boolColumns := fun h => hplain (mem_of_mem_filter h)
  rw [toDocument, finishRow, get_redactSyncColumns, coerceTypes,
    AssocMap.get_map _ (fun k v => if k ∈ s.boolColumns then coerceBool v else v),
    AssocMap.get_ofKeys, if_pos hc]
  simp [hbool, redactValue_of_not_mem hplain]

theorem keys_toDocument : AssocMap.keys (toDocument s keyCol row) = readColsWithKey s keyCol := by
  rw [toDocument, finishRow, keys_redactSyncColumns, coerceTypes]
  simp [AssocMap.keys, Function.comp_def]

/-! ### Join keys -/

/-- The join key of a document, empty when the column is absent or NULL. -/
def keyOf (doc : Doc) (col : String) : String :=
  match doc.get col with
  | none | some .null => ""
  | some v => Write.scalarString v

/-- The join keys of some documents. -/
def collectKeys (docs : List Doc) (col : String) : List String :=
  (docs.map (keyOf · col)).filter (· ≠ "")

theorem mem_collectKeys {docs : List Doc} :
    k ∈ collectKeys docs col ↔ (∃ doc ∈ docs, keyOf doc col = k) ∧ k ≠ "" := by
  simp [collectKeys]

theorem keyOf_congr {d e : Doc} (h : d.get col = e.get col) : keyOf d col = keyOf e col := by
  rw [keyOf, keyOf, h]

theorem keyOf_of_get {doc : Doc} (h : doc.get col = some (.str k)) : keyOf doc col = k := by
  rw [keyOf, h]
  rfl

theorem get_toDocument_key (hplain : keyCol ∉ columns s.fields) (h : rowKey row keyCol = some k) :
    (toDocument s keyCol row).get keyCol = some (.str k) := by
  rw [get_toDocument (mem_readColsWithKey.2 (.inr rfl)) hplain, rowKey_eq_some.1 h]
  rfl

/-! ### The reads -/

theorem eq_of_perm_of_length_le_one {α : Type} {l l' : List α} (h : l.Perm l')
    (hlen : l'.length ≤ 1) : l = l' := by
  match l', hlen with
  | [], _ => exact h.eq_nil
  | [a], _ => exact perm_singleton.1 h

/-- The most keys one `IN` list binds. -/
def maxInClauseSize : ℕ+ := 900

/-- The archive predicate of a fetch. -/
def archiveGate (archivedCol : Option String) (includeArchived : Bool) : Gate :=
  if includeArchived then .any else archivedCol.elim .any .isNull

/-- The instant in a timestamp column. -/
def archivedInstant (archivedCol : String) (row : Row) : ℕ :=
  match row.get archivedCol with
  | some (.time t) => t
  | _ => 0

section

variable (q : Querier) (s : Source) (keyCol : String)

/-- The most recently archived row of a key. -/
def fetchLatestArchived (key archivedCol : String) : Option Doc :=
  ((q.select ⟨s.table, keyCol, [key], .isNotNull archivedCol⟩).argmax
    (archivedInstant archivedCol)).map (toDocument s keyCol)

variable (archivedCol : Option String) (includeArchived : Bool)

/-- One row of a key. -/
def fetchRow (key : String) : Option Doc :=
  (q.select ⟨s.table, keyCol, [key], archiveGate archivedCol includeArchived⟩).head?.map
    (toDocument s keyCol)

/-- Every row of a key. -/
def fetchWhere (key : String) : List Doc :=
  (q.select ⟨s.table, keyCol, [key], archiveGate archivedCol includeArchived⟩).map
    (toDocument s keyCol)

/-- Every row of some keys, in one statement for each chunk of them. -/
def fetchByIDs (ids : List String) : List Doc :=
  (chunks maxInClauseSize ids).flatMap fun chunk =>
    (q.select ⟨s.table, keyCol, chunk, archiveGate archivedCol includeArchived⟩).map
      (toDocument s keyCol)

/-- Every row of some keys, each key asked for once, grouped by key. -/
def fetchInGrouped (keys : List String) : AssocMap String (List Doc) :=
  groupBy (keyOf · keyCol) (fetchByIDs q s keyCol archivedCol includeArchived (uniq keys))

variable {q s keyCol archivedCol includeArchived} {k : String} {keys : List String}

variable (hplain : keyCol ∉ columns s.fields)
include hplain

theorem filter_map_toDocument (st : Select) (hst : st.keyCol = keyCol) :
    ((q.select st).map (toDocument s keyCol)).filter (fun doc => keyOf doc keyCol = k) =
      ((q.select st).filter fun row => rowKey row keyCol = some k).map (toDocument s keyCol) := by
  rw [filter_map]
  congr 1
  refine filter_congr fun row hrow => ?_
  obtain ⟨j, -, hj, -⟩ := admits_iff.1 (Querier.mem_select.1 hrow).2
  rw [hst] at hj
  simp [keyOf_of_get (get_toDocument_key hplain hj), hj]

/-- **The rows of a key come from one statement.** -/
theorem exists_select_of_mem (hk : k ∈ keys) :
    ∃ chunk, k ∈ chunk ∧
      group (fetchInGrouped q s keyCol archivedCol includeArchived keys) k =
        ((q.select ⟨s.table, keyCol, chunk, archiveGate archivedCol includeArchived⟩).filter
          fun row => rowKey row keyCol = some k).map (toDocument s keyCol) := by
  have hflat : (chunks maxInClauseSize (uniq keys)).flatten = uniq keys := flatten_chunks ..
  obtain ⟨chunk, hchunk, heq⟩ := exists_chunk_of_mem (hflat ▸ nodup_uniq keys)
    (hflat ▸ mem_uniq.2 hk)
    (fun chunk => (q.select ⟨s.table, keyCol, chunk, archiveGate archivedCol includeArchived⟩).map
      (toDocument s keyCol))
    (fun doc => keyOf doc keyCol = k) (by
      -- a statement that does not bind the key lists no row of it
      intro chunk hchunk
      rw [filter_map_toDocument hplain _ rfl, map_eq_nil_iff, filter_eq_nil_iff]
      intro row hrow hkey
      obtain ⟨j, hj, hjk, -⟩ := admits_iff.1 (Querier.mem_select.1 hrow).2
      rw [of_decide_eq_true hkey] at hjk
      exact hchunk (Option.some.inj hjk ▸ hj))
  refine ⟨chunk, hchunk, ?_⟩
  rw [fetchInGrouped, group_groupBy, fetchByIDs, heq, filter_map_toDocument hplain _ rfl]

/-- **A group lists the rows of its key.** -/
theorem group_fetchInGrouped_perm (hk : k ∈ keys) :
    (group (fetchInGrouped q s keyCol archivedCol includeArchived keys) k).Perm
      (fetchWhere q s keyCol archivedCol includeArchived k) := by
  obtain ⟨chunk, hchunk, heq⟩ := exists_select_of_mem (q := q) (s := s) hplain hk
  rw [heq]
  exact (q.filter_select_perm ⟨s.table, keyCol, chunk, _⟩ hchunk).map _

/-- **The first row of a group is the row of the key**, where there is at most one. -/
theorem head?_group_fetchInGrouped
    (hone : OnePerKey q.tables s.table keyCol (archiveGate archivedCol includeArchived))
    (hk : k ∈ keys) :
    (group (fetchInGrouped q s keyCol archivedCol includeArchived keys) k).head? =
      fetchRow q s keyCol archivedCol includeArchived k := by
  have hperm : (group (fetchInGrouped q s keyCol archivedCol includeArchived keys) k).Perm _ :=
    group_fetchInGrouped_perm hplain hk
  have hlen : (fetchWhere q s keyCol archivedCol includeArchived k).length ≤ 1 := by
    rw [fetchWhere, length_map, (q.select_perm _).length_eq]
    exact hone k
  rw [eq_of_perm_of_length_le_one hperm hlen, fetchRow, fetchWhere, head?_map]

theorem group_fetchInGrouped_of_not_mem (hk : k ∉ keys) :
    group (fetchInGrouped q s keyCol archivedCol includeArchived keys) k = [] := by
  rw [fetchInGrouped, group_groupBy, filter_eq_nil_iff]
  intro doc hdoc hkey
  obtain ⟨chunk, hchunk, hdoc⟩ := mem_flatMap.1 hdoc
  obtain ⟨row, hrow, rfl⟩ := mem_map.1 hdoc
  obtain ⟨j, hj, hjk, -⟩ := admits_iff.1 (Querier.mem_select.1 hrow).2
  rw [decide_eq_true_eq, keyOf_of_get (get_toDocument_key hplain hjk)] at hkey
  have hmem : j ∈ (chunks maxInClauseSize (uniq keys)).flatten := mem_flatten_of_mem hchunk hj
  rw [flatten_chunks, mem_uniq, hkey] at hmem
  exact hk hmem

end

end Omnicore.Hydrate
