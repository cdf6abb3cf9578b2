import Omnicore.Domain.ChildIdentity
import Omnicore.Write.AggregateWrite

/-!
# The rows a write leaves

Persisting the tracked children of a type archives or deletes the rows of the removed ones and adds
a row under a minted id for each new one.

## Main results

* `writeChild_ok` : the rows of a child table after the write of one child.
* `writeChildren_table` : the rows of a child table after the write of all children.
-/

namespace Omnicore.Write

open Omnicore.Core Domain List Database Function Except

variable {α : Type} [PersistentItem α]

/-- A child row without its mapped columns. -/
def ChildRow.bare (r : ChildRow) : ChildRow := { r with fields := [] }

/-- The rows of a child table without their mapped columns. -/
def bareRows (db : Database) (table : String) : List ChildRow :=
  (db.children table).rows.map ChildRow.bare

/-- What the tracked entries of its type leave of a row: the one of a removed child is archived, or
deleted where the child has no archived state. -/
def rowFate (child : ChildSchema) (now : Instant) (list : List (AggregateItemEntry α))
    (r : ChildRow) : Option ChildRow :=
  if list.any fun e => e.operation = .delete && getID e.item = r.id then
    if child.archivedAt.isSome then some { r with archivedAt := some now } else none
  else some r

/-- The rows of the new children. -/
def mintedRows (newID : ℕ → String) (minted : ℕ) (list : List (AggregateItemEntry α))
    (ownerID : String) : List ChildRow :=
  (range' minted (list.countP (·.operation = .insert))).map fun k =>
    { id := newID k, parentID := ownerID, fields := [] }

section

variable {env : Env} {child : ChildSchema} {ownerID : String} {now : Instant} {w w' : ChildWrite α}

theorem bareRows_insertChildRow {db db' : Database} {table : String} {row : ChildRow}
    (h : db.insertChildRow table row = .ok db') :
    bareRows db' table = bareRows db table ++ [row.bare] ∧ db'.minted = db.minted ∧
      ∀ t, t ≠ table → db'.children t = db.children t := by
  rw [insertChildRow] at h
  split at h
  · rename_i rows hrows
    cases h
    refine ⟨?_, rfl, fun t ht => update_of_ne ht _ _⟩
    simp [bareRows, setChildren, (Table.insert_eq_some hrows).2]
  · cases h

omit [PersistentItem α] in
theorem bareRows_updateChildRows (db : Database) (table : String) (p : ChildRow → Bool)
    (f : ChildRow → ChildRow) : bareRows (db.updateChildRows table p f) table =
      (db.children table).rows.map fun r => if p r then
        { id := r.id, parentID := r.parentID, fields := [], archivedAt := (f r).archivedAt }
      else r.bare := by
  simp only [bareRows, updateChildRows, setChildren, update_self, Table.modify, map_map]
  refine map_congr_left fun r _ => ?_
  simp only [comp]
  split_ifs <;> rfl

theorem writeChild_ok {it : AggregateItemEntry α}
    (h : writeChild env child ownerID now w it = .ok w') :
    bareRows w'.db child.table = (bareRows w.db child.table).filterMap (rowFate child now [it]) ++
      mintedRows env.newWriteID w.db.minted [it] ownerID ∧
    w'.db.minted = w.db.minted + [it].countP (·.operation = .insert) ∧
    (∀ t, t ≠ child.table → w'.db.children t = w.db.children t) ∧
    w'.root = if it.operation = .insert then
      w.root.assignAggregateItemID it.item (env.newWriteID w.db.minted) else w.root := by
  -- an entry that is not removed leaves every row
  have hkeep : it.operation ≠ .delete → ∀ rows : List ChildRow,
      rows.filterMap (rowFate child now [it]) = rows := by
    intro hne rows
    have : rowFate child now [it] = some := by
      funext r
      simp [rowFate, hne]
    rw [this, filterMap_some]
  rw [writeChild] at h
  cases hop : it.operation <;> simp only [hop] at h
  case noop =>
    cases h
    refine ⟨?_, by simp [hop], fun _ _ => rfl, rfl⟩
    rw [hkeep (by simp [hop])]
    simp [mintedRows, hop]
  case insert =>
    simp only [insertChild, bind_ok, pure_ok] at h
    obtain ⟨db, hdb, rfl⟩ := h
    obtain ⟨hrows, hminted, hframe⟩ := bareRows_insertChildRow hdb
    refine ⟨?_, by simp [hop, hminted], hframe, rfl⟩
    rw [hkeep (by simp [hop]), hrows]
    simp [mintedRows, hop, ChildRow.bare, bareRows]
  case update =>
    rw [updateChild] at h
    split_ifs at h
    cases h
    refine ⟨?_, by simp [hop, updateChildRows, setChildren], fun t ht => update_of_ne ht _ _, rfl⟩
    rw [hkeep (by simp [hop]), bareRows_updateChildRows]
    simp [mintedRows, hop, bareRows, ChildRow.bare]
  case delete =>
    have hfate : ∀ r : ChildRow, rowFate child now [it] r.bare = if getID it.item = r.id then
        if child.archivedAt.isSome then some { r.bare with archivedAt := some now } else none
        else some r.bare := by
      intro r
      simp only [rowFate, any_cons, any_nil, hop, decide_true, Bool.true_and,
        Bool.or_false, decide_eq_true_eq]
      rfl
    have hnone : mintedRows env.newWriteID w.db.minted [it] ownerID = [] := by
      simp [mintedRows, hop]
    rw [removeChild] at h
    split_ifs at h with harch
    · cases h
      refine ⟨?_, by simp [hop, updateChildRows, setChildren], fun t ht => update_of_ne ht _ _, rfl⟩
      rw [bareRows_updateChildRows, bareRows, filterMap_map, hnone, append_nil, ← filterMap_eq_map]
      refine filterMap_congr fun r _ => ?_
      simp only [comp, hfate, harch, if_true, decide_eq_true_eq, eq_comm (a := r.id)]
      split_ifs <;> rfl
    · cases h
      refine ⟨?_, by simp [hop, deleteChildRows, setChildren], fun t ht => update_of_ne ht _ _, rfl⟩
      rw [bareRows, hnone, append_nil, bareRows, filterMap_map]
      simp only [deleteChildRows, setChildren, update_self, Table.delete]
      rw [← filterMap_eq_map, ← filterMap_eq_filter, filterMap_filterMap]
      refine filterMap_congr fun r _ => ?_
      simp only [comp, hfate, harch, Bool.false_eq_true, if_false]
      by_cases hid : getID it.item = r.id
      · simp [hid, Option.guard]
      · simp [hid, Ne.symm hid, Option.guard]

/-! ### Every type -/

theorem writeChildren_table {schema : TableSchema} {ar : AggregateRoot α} {db db' : Database}
    {root' : Option (AggregateRoot α)} {rootID baseID : String} {fromBase : Bool}
    (hkeys : ar.aggregates.keys.Nodup) {c : ChildSchema}
    (hres : schema.resolveAggregateChild c.typeName = some (c, fromBase))
    (h : writeChildren env db schema (some ar) rootID baseID now = .ok (db', root')) :
    ∃ w w' : ChildWrite α, w.db.children c.table = db.children c.table ∧
      (ar.entries c.typeName).foldlM (writeChild env c (if fromBase then baseID else rootID) now)
        w = .ok w' ∧
      db'.children c.table = w'.db.children c.table := by
  have hc := (SchemaDecl.resolveAggregateChild_some hres).1
  simp only [writeChildren, bind_ok, pure_ok] at h
  obtain ⟨w', hw', h⟩ := h
  cases h
  -- the entries of another type are written to another table
  have hframe : ∀ (types : List (String × List (AggregateItemEntry α))) (w w' : ChildWrite α),
      c.typeName ∉ types.map Prod.fst →
      types.foldlM (writeChildType env schema rootID baseID now) w = .ok w' →
      w'.db.children c.table = w.db.children c.table := by
    intro types w w' htypes hfold
    refine foldlM_invariant
      (P := fun w' : ChildWrite α => w'.db.children c.table = w.db.children c.table)
      (fun w1 p hp w2 hw hstep => ?_) rfl hfold
    rw [writeChildType] at hstep
    split at hstep
    · cases hstep
    · rename_i child b hchild
      obtain ⟨hmem, hname⟩ := SchemaDecl.resolveAggregateChild_some hchild
      refine foldlM_invariant
        (P := fun w' : ChildWrite α => w'.db.children c.table = w.db.children c.table)
        (fun w1 it hit w2 hw hstep => ?_) hw hstep
      obtain ⟨-, -, hother, -⟩ := writeChild_ok hstep
      refine (hother c.table fun ht => htypes ?_).trans hw
      rw [schema.table_injOn hc hmem ht, hname]
      exact mem_map_of_mem hp
  cases hget : ar.aggregates.get c.typeName with
  | none =>
    refine ⟨{ db, root := ar }, { db, root := ar }, rfl, ?_, ?_⟩
    · rw [AggregateRoot.entries, hget]
      rfl
    · exact hframe _ _ _ ((AssocMap.get_eq_none_iff ..).1 hget) hw'
  | some list =>
    obtain ⟨before, after, hsplit⟩ := append_of_mem (AssocMap.mem_of_get hget)
    rw [hsplit, AssocMap.keys, map_append, map_cons, nodup_append] at hkeys
    obtain ⟨-, hafter, hbefore⟩ := hkeys
    rw [hsplit, foldlM_append, bind_ok] at hw'
    obtain ⟨w1, hw1, hw'⟩ := hw'
    rw [foldlM_cons, bind_ok] at hw'
    obtain ⟨w2, hw2, hw'⟩ := hw'
    refine ⟨w1, w2, ?_, ?_, ?_⟩
    · exact hframe _ _ _ (fun hmem => hbefore _ hmem _ mem_cons_self rfl) hw1
    · rw [writeChildType, hres] at hw2
      rw [AggregateRoot.entries, hget]
      exact hw2
    · exact hframe _ _ _ (nodup_cons.1 hafter).1 hw'

end

end Omnicore.Write
