import Omnicore.Domain.Replacement
import Omnicore.Write.EventStamps

/-!
# A role posted onto an existing identity

A role inserted onto an existing identity starts from the identity as it is: all native children of
the base are loaded, whatever their state, the posted items replace those of their type, and the
insert writes the difference and wakes the base.  An item that matches a loaded row rewrites it in
place, and the row keeps its archived state; the base wakes those rows alone that it has put to
sleep itself.

## Main definitions

* `ActiveAsPosted` : the active rows of a native child are the posted items.
* `stranded`, `returning` : the items whose row stays archived, and the rows that no item asks for
  and that are active.

## Main results

* `active_iff_returning_stranded` : the rows are as posted exactly if those two make up for each
  other.
* `posted_child_stays_archived` : an item that matches a row archived on its own.
-/

namespace Omnicore.Write

open Omnicore.Core Domain Read List Database Function Except SchemaDecl

variable {α : Type} [PersistentItem α]

/-! ### The children of one type -/

variable (c : ChildSchema) (db : Database) (baseID : String) (stamp : Option Instant) (r : ChildRow)
  (now : Instant) (items : List α)

/-- The values of the mapped columns of a row. -/
def rowValues : List (Option Value) := (columns c.fields).map r.fields.get

/-- The values a row with an item's columns has. -/
def itemValues (x : α) : List (Option Value) := (columns c.fields).map fun col => some (value x col)

/-- A row is active; without an archived state every row is. -/
def ChildRow.isActive : Bool := c.archivedAt.isNone || r.archivedAt.isNone

open ChildRow

/-- **As posted**: the active rows of a native child under a base are the items, one row for each
with its values. -/
def ActiveAsPosted (db : Database) : Prop :=
  (((db.children c.table).rows.filter fun r => r.parentID = baseID && r.isActive c).map
    (rowValues c)).Perm (items.map (itemValues c))

instance (c : ChildSchema) (baseID : String) (items : List α) (db : Database) :
    Decidable (ActiveAsPosted c baseID items db) :=
  inferInstanceAs (Decidable (List.Perm _ _))

/-- The loaded rows of a native child, each with the item that takes its place, and the items that
match none. -/
def postedOnto : List (ChildRow × Option α) × List α :=
  matchFirst (fun r => isSameBusinessIdentity (scan c r : α)) (baseChildRows db baseID c) items

/-- A row is active once the base is awake, which was put to sleep under a stamp, if it was. -/
def ChildRow.wakes : Bool := r.isActive c || (stamp.isSome && r.archivedAt = stamp)

/-- The item of a loaded row that stays archived. -/
def strandedItem (p : ChildRow × Option α) : Option α :=
  if p.1.wakes c stamp then none else p.2

/-- A loaded row that no item asks for and that is archived at the very instant of the base's own
stamp. -/
def returningRow (p : ChildRow × Option α) : Option ChildRow :=
  if p.2.isNone ∧ c.archivedAt.isSome ∧ stamp = some now then some p.1 else none

/-- The items whose row stays archived. -/
def stranded : List α := (postedOnto c db baseID items).1.filterMap (strandedItem c stamp)

/-- The rows that are active though no item asks for them: those removed under the base's own stamp,
and those of a child without mapped columns, which are not loaded. -/
def returning : List ChildRow :=
  (postedOnto c db baseID items).1.filterMap (returningRow c stamp now) ++
  if c.fields = [] then
    (db.children c.table).rows.filter fun r => r.parentID = baseID && r.wakes c stamp
  else []

/-! ### The rows of one table -/

section

variable {env : Env} {c : ChildSchema} {ownerID : String} {now : Instant} {w w' : ChildWrite α}

/-- A row after an entry that is about it. -/
def rowAfter (c : ChildSchema) (now : Instant) (e : AggregateItemEntry α) (r : ChildRow) :
    Option ChildRow :=
  match e.operation with
  | .update => some { r with fields := r.fields.setAll (writeFields c.fields (value e.item)) }
  | .delete => if c.archivedAt.isSome then some { r with archivedAt := some now } else none
  | _ => some r

theorem rows_writeChild {e : AggregateItemEntry α} (hop : e.operation ≠ .insert)
    (h : writeChild env c ownerID now w e = .ok w') :
    (w'.db.children c.table).rows = (w.db.children c.table).rows.filterMap fun r =>
      if r.id = getID e.item then rowAfter c now e r else some r := by
  rw [writeChild] at h
  cases hcase : e.operation <;> simp only [hcase] at h
  case insert => exact absurd hcase hop
  case noop =>
    cases h
    simp [rowAfter, hcase]
  case update =>
    rw [updateChild] at h
    split_ifs at h
    cases h
    simp only [updateChildRows, setChildren, update_self, Table.modify]
    rw [← filterMap_eq_map]
    refine filterMap_congr fun r _ => ?_
    simp only [comp, rowAfter, hcase, decide_eq_true_eq]
    split_ifs <;> rfl
  case delete =>
    rw [removeChild] at h
    split_ifs at h with harch
    · cases h
      simp only [updateChildRows, setChildren, update_self, Table.modify]
      rw [← filterMap_eq_map]
      refine filterMap_congr fun r _ => ?_
      simp only [comp, rowAfter, hcase, harch, if_true, decide_eq_true_eq]
      split_ifs <;> rfl
    · cases h
      simp only [deleteChildRows, setChildren, update_self, Table.delete]
      rw [← filterMap_eq_filter]
      refine filterMap_congr fun r _ => ?_
      by_cases hid : r.id = getID e.item
      · simp [rowAfter, hcase, harch, hid, Option.guard]
      · simp [hid, Option.guard]

theorem rows_foldlM_loaded {pairs : List (ChildRow × AggregateItemEntry α)} {rest : List ChildRow}
    (hpairs : ∀ p ∈ pairs, p.2.operation ≠ .insert ∧ getID p.2.item = p.1.id)
    (hids : (pairs.map (·.1.id)).Nodup) (hrest : ∀ r ∈ rest, r.id ∉ pairs.map (·.1.id))
    (hrows : (w.db.children c.table).rows.Perm (pairs.map Prod.fst ++ rest))
    (h : (pairs.map Prod.snd).foldlM (writeChild env c ownerID now) w = .ok w') :
    (w'.db.children c.table).rows.Perm
      ((pairs.filterMap fun p => rowAfter c now p.2 p.1) ++ rest) := by
  induction pairs generalizing w rest with
  | nil =>
    cases h
    exact hrows
  | cons p pairs ih =>
    rw [map_cons, foldlM_cons, bind_ok] at h
    obtain ⟨w1, hw1, h⟩ := h
    obtain ⟨⟨hop, hid⟩, hpairs⟩ := forall_mem_cons.1 hpairs
    rw [map_cons, nodup_cons] at hids
    have hother : ∀ r : ChildRow, r.id ≠ p.1.id →
        (if r.id = getID p.2.item then rowAfter c now p.2 r else some r) = some r := by
      intro r hr
      rw [hid, if_neg hr]
    have hrows1 : (w1.db.children c.table).rows.Perm
        (pairs.map Prod.fst ++ ((rowAfter c now p.2 p.1).toList ++ rest)) := by
      rw [rows_writeChild hop hw1]
      refine (hrows.filterMap _).trans ?_
      have htail : ∀ l : List ChildRow, (∀ r ∈ l, r.id ≠ p.1.id) →
          (l.filterMap fun r => if r.id = getID p.2.item then rowAfter c now p.2 r else some r) =
            l := by
        intro l hl
        rw [filterMap_congr fun r hr => hother r (hl r hr), filterMap_some]
      rw [map_cons, cons_append, filterMap_cons, hid, if_pos rfl, ← hid,
        filterMap_append, htail, htail]
      · cases rowAfter c now p.2 p.1 with
        | none => exact .refl _
        | some r => exact perm_middle.symm
      · intro r hr he
        exact hrest r hr (he ▸ mem_cons_self)
      · intro r hr he
        obtain ⟨q, hq, rfl⟩ := mem_map.1 hr
        exact hids.1 (he ▸ mem_map_of_mem hq)
    have hafter : ∀ r ∈ rowAfter c now p.2 p.1, r.id = p.1.id := by
      intro r hr
      simp only [rowAfter] at hr
      split at hr
      · cases hr
        rfl
      · split_ifs at hr
        · cases hr
          rfl
        · cases hr
      · cases hr
        rfl
    refine (ih hpairs hids.2 (fun r hr => ?_) hrows1 h).trans ?_
    · rcases mem_append.1 hr with hr | hr
      · rw [hafter r (Option.mem_toList.1 hr)]
        exact hids.1
      · exact fun hmem => hrest r hr (mem_cons_of_mem _ hmem)
    · rw [filterMap_cons]
      cases rowAfter c now p.2 p.1 with
      | none => exact .refl _
      | some r => exact perm_middle

theorem rows_foldlM_added {items : List α}
    (h : (items.map fun x => (⟨x, .added, .added⟩ : AggregateItemEntry α)).foldlM
      (writeChild env c ownerID now) w = .ok w') :
    ∃ new : List ChildRow, (w'.db.children c.table).rows = (w.db.children c.table).rows ++ new ∧
      new.map (rowValues c) = items.map (itemValues c) ∧
      ∀ r ∈ new, r.parentID = ownerID ∧ r.archivedAt = none := by
  induction items generalizing w with
  | nil =>
    cases h
    exact ⟨[], (append_nil _).symm, rfl, nofun⟩
  | cons x items ih =>
    rw [map_cons, foldlM_cons, bind_ok] at h
    obtain ⟨w1, hw1, h⟩ := h
    obtain ⟨new, hrows, hvalues, hnew⟩ := ih h
    have hinsert : insertChild env c ownerID w x = .ok w1 := hw1
    simp only [insertChild, bind_ok, pure_ok] at hinsert
    obtain ⟨db, hdb, rfl⟩ := hinsert
    rw [insertChildRow] at hdb
    split at hdb
    · rename_i table htable
      cases hdb
      refine ⟨{ id := env.newWriteID w.db.minted, parentID := ownerID
                fields := writeFields c.fields (value x) } :: new, ?_, ?_,
        forall_mem_cons.2 ⟨⟨rfl, rfl⟩, hnew⟩⟩
      · rw [hrows]
        simp only [setChildren, update_self, (Table.insert_eq_some htable).2, append_assoc]
        rfl
      · rw [map_cons, map_cons, hvalues]
        congr 1
        refine map_congr_left fun col hcol => ?_
        rw [get_writeFields, if_pos hcol]
    · cases hdb

end

/-! ### The rows an insert leaves -/

/-- The carrier holds no mapped column. -/
def CarrierUnmapped (α : Type) [PersistentItem α] (c : ChildSchema) : Prop :=
  ∀ (x y : α) (id : String), withItemID x id = some y →
    ∀ col ∈ columns c.fields, value y col = value x col

section

variable {env : Env} {c : ChildSchema} {baseID : String} {now : Instant} {db : Database}
  {items : List α} {stamp : Option Instant}

theorem itemValues_reactivated (hcarrier : CarrierUnmapped α c) (l x : α) :
    itemValues c (reactivated l x) = itemValues c x := by
  refine map_congr_left fun col hcol => congrArg some ?_
  rw [reactivated]
  split_ifs
  · cases hw : withItemID x (getID l) with
    | none => rfl
    | some y => exact hcarrier x y _ hw col hcol
  · rfl

theorem rowValues_rewritten (hcols : (columns c.fields).Nodup) (x : α) (r : ChildRow) :
    rowValues c { r with fields := r.fields.setAll (writeFields c.fields (value x)) } =
      itemValues c x := by
  refine map_congr_left fun col hcol => ?_
  rw [AssocMap.get_setAll _ (by rwa [keys_writeFields]), get_writeFields, if_pos hcol,
    Option.some_or]

theorem getID_replacedEntry [LawfulCarrier α] {r : ChildRow} (hid : getID (scan c r : α) = r.id)
    (hne : r.id ≠ "") (o : Option α) : getID (replacedEntry (scan c r) o).item = r.id := by
  cases o with
  | none => exact hid
  | some x =>
    change getID (reactivated (scan c r) x) = r.id
    rw [reactivated, hid, if_pos hne]
    obtain ⟨y, hy⟩ := Option.isSome_iff_exists.1 (LawfulCarrier.withItemID_isSome x r.id)
    rw [hy, Option.getD_some, withItemID_getID hy]

omit [PersistentItem α] in
theorem operation_replacedEntry [AggregateValueObject α] (l : α) (o : Option α) :
    (replacedEntry l o).operation = if o.isSome then .update else .delete := by
  cases o <;> rfl

/-- The rows of a table that a load of the base does not read. -/
def unloadedRows (c : ChildSchema) (db : Database) (baseID : String) : List ChildRow :=
  if c.fields = [] then (db.children c.table).rows
  else (db.children c.table).rows.filter fun r => !decide (r.parentID = baseID)

theorem perm_loaded_unloaded :
    (db.children c.table).rows.Perm (baseChildRows db baseID c ++ unloadedRows c db baseID) := by
  rw [baseChildRows, unloadedRows]
  split_ifs
  · exact .refl _
  · exact (filter_append_perm ..).symm

/-- The row of a loaded child after the insert has written it. -/
def rowPosted (c : ChildSchema) (now : Instant) (p : ChildRow × Option α) : Option ChildRow :=
  rowAfter c now (replacedEntry (scan c p.1) p.2) p.1

theorem rows_foldlM_replacedEntries [LawfulCarrier α] {w w' : ChildWrite α}
    (hscan : ∀ r, getID (scan c r : α) = r.id) (hids : ∀ r ∈ (db.children c.table).rows, r.id ≠ "")
    (hw : w.db.children c.table = db.children c.table)
    (h : (replacedEntries ((baseChildRows db baseID c).map (scan c)) items).foldlM
      (writeChild env c baseID now) w = .ok w') :
    ∃ new : List ChildRow, (w'.db.children c.table).rows.Perm
        (((postedOnto c db baseID items).1.filterMap (rowPosted c now) ++
          unloadedRows c db baseID) ++ new) ∧
      new.map (rowValues c) = (postedOnto c db baseID items).2.map (itemValues c) ∧
      ∀ r ∈ new, r.parentID = baseID ∧ r.archivedAt = none := by
  have hfst : (postedOnto c db baseID items).1.map Prod.fst = baseChildRows db baseID c :=
    matchFirst_fst ..
  have hloaded : ∀ r ∈ baseChildRows db baseID c, r ∈ (db.children c.table).rows := fun r hr =>
    perm_loaded_unloaded.mem_iff.2 (mem_append_left _ hr)
  rw [replacedEntries, matchFirst_map, foldlM_append, bind_ok] at h
  obtain ⟨w1, hw1, h⟩ := h
  obtain ⟨new, hrows, hvalues, hnew⟩ := rows_foldlM_added h
  refine ⟨new, ?_, hvalues, hnew⟩
  rw [hrows]
  refine List.Perm.append_right new ?_
  have hids' : ((baseChildRows db baseID c ++ unloadedRows c db baseID).map ChildRow.id).Nodup :=
    (perm_loaded_unloaded.map ChildRow.id).nodup_iff.1 (db.children c.table).keys_nodup
  rw [map_append, nodup_append] at hids'
  obtain ⟨hnodup, -, hapart⟩ := hids'
  -- every loaded row with its entry
  obtain ⟨pairs, hpairs⟩ : ∃ pairs : List (ChildRow × AggregateItemEntry α),
      pairs = (postedOnto c db baseID items).1.map fun p =>
        (p.1, replacedEntry (scan c p.1) p.2) := ⟨_, rfl⟩
  have hpairsFst : pairs.map Prod.fst = baseChildRows db baseID c := by
    rw [hpairs, map_map, ← hfst]
    rfl
  have hpairsID : pairs.map (·.1.id) = (baseChildRows db baseID c).map ChildRow.id := by
    rw [← hpairsFst, map_map]
    rfl
  have hresult : pairs.filterMap (fun p => rowAfter c now p.2 p.1) =
      (postedOnto c db baseID items).1.filterMap (rowPosted c now) := by
    rw [hpairs, filterMap_map]
    rfl
  have hfold : (pairs.map Prod.snd).foldlM (writeChild env c baseID now) w = .ok w1 := by
    rw [hpairs, map_map]
    rw [map_map] at hw1
    exact hw1
  rw [← hresult]
  refine rows_foldlM_loaded (fun p hp => ?_) ?_ (fun r hr => ?_) ?_ hfold
  · rw [hpairs] at hp
    obtain ⟨q, hq, rfl⟩ := mem_map.1 hp
    have hmem : q.1 ∈ baseChildRows db baseID c := hfst ▸ mem_map_of_mem hq
    constructor
    · rw [operation_replacedEntry]
      split_ifs <;> simp
    · exact getID_replacedEntry (hscan q.1) (hids _ (hloaded _ hmem)) q.2
  · rwa [hpairsID]
  · rw [hpairsID]
    exact fun hmem => hapart _ hmem _ (mem_map_of_mem hr) rfl
  · rw [hpairsFst, hw]
    exact perm_loaded_unloaded

/-- What the loaded rows of a base and the items make up for: the rows that end active and the
stranded items on one side, the matched items and the returning rows on the other. -/
theorem perm_posted (hcols : (columns c.fields).Nodup) (hcarrier : CarrierUnmapped α c)
    (pairs : List (ChildRow × Option α)) (hparent : ∀ p ∈ pairs, p.1.parentID = baseID) :
    ((((pairs.filterMap (rowPosted c now)).filter fun r =>
        r.parentID = baseID && r.wakes c stamp).map (rowValues c)) ++
      (pairs.filterMap (strandedItem c stamp)).map (itemValues c)).Perm
    ((pairs.filterMap Prod.snd).map (itemValues c) ++
      (pairs.filterMap (returningRow c stamp now)).map (rowValues c)) := by
  induction pairs with
  | nil => exact .refl _
  | cons p pairs ih =>
    obtain ⟨hp, hparent⟩ := forall_mem_cons.1 hparent
    have ih := ih hparent
    obtain ⟨r, o⟩ := p
    dsimp only at hp
    cases o with
    | some x =>
      -- the row is rewritten, and counts if it wakes
      obtain ⟨r', hr', hparent', hwakes', hvals⟩ : ∃ r', rowPosted c now (r, some x) = some r' ∧
          r'.parentID = baseID ∧ r'.wakes c stamp = r.wakes c stamp ∧
          rowValues c r' = itemValues c x := by
        refine ⟨_, rfl, hp, rfl, ?_⟩
        exact (rowValues_rewritten hcols _ r).trans (itemValues_reactivated hcarrier _ x)
      have hreturn : returningRow c stamp now (r, some x) = none := if_neg (by simp)
      rw [filterMap_cons, filterMap_cons, filterMap_cons, filterMap_cons]
      by_cases hwakes : r.wakes c stamp
      · have hstrand : strandedItem c stamp (r, some x) = none := if_pos hwakes
        simp only [hr', hreturn, hstrand]
        rw [filter_cons_of_pos (by simp [hparent', hwakes', hwakes]), map_cons, hvals]
        exact ih.cons _
      · have hstrand : strandedItem c stamp (r, some x) = some x := if_neg hwakes
        simp only [hr', hreturn, hstrand]
        rw [filter_cons_of_neg (by simp [hwakes', hwakes]), map_cons]
        exact perm_middle.trans (ih.cons _)
    | none =>
      have hstrand : strandedItem c stamp (r, (none : Option α)) = none := ite_self _
      rw [filterMap_cons, filterMap_cons, filterMap_cons, filterMap_cons]
      by_cases harch : c.archivedAt.isSome
      · -- the row is archived now, and wakes if the base was archived now too
        have hr' : rowPosted c now (r, (none : Option α)) =
            some { r with archivedAt := some now } := by
          simp [rowPosted, rowAfter, operation_replacedEntry, harch]
        have hwakes : wakes c stamp { r with archivedAt := some now } =
            decide (stamp = some now) := by
          have hnone : c.archivedAt.isNone = false := by
            rw [← Option.not_isSome, harch]
            rfl
          rw [wakes, isActive, hnone]
          cases stamp <;> simp [eq_comm]
        by_cases hstamp : stamp = some now
        · have hreturn : returningRow c stamp now (r, (none : Option α)) = some r :=
            if_pos ⟨rfl, harch, hstamp⟩
          simp only [hr', hreturn, hstrand]
          rw [filter_cons_of_pos (by rw [hwakes]; simp [hp, hstamp]), map_cons]
          exact (ih.cons _).trans perm_middle.symm
        · have hreturn : returningRow c stamp now (r, (none : Option α)) = none :=
            if_neg fun h => hstamp h.2.2
          simp only [hr', hreturn, hstrand]
          rw [filter_cons_of_neg (by rw [hwakes]; simp [hstamp])]
          exact ih
      · have hr' : rowPosted c now (r, (none : Option α)) = none := by
          simp [rowPosted, rowAfter, operation_replacedEntry, harch]
        have hreturn : returningRow c stamp now (r, (none : Option α)) = none :=
          if_neg fun h => harch h.2.1
        simp only [hr', hreturn, hstrand]
        exact ih

theorem active_movedRows {schema : TableSchema}
    (hres : schema.resolveAggregateChild c.typeName = some (c, true)) (rows : List ChildRow) :
    ((movedRows false (archivableTables schema.baseChildren) baseID stamp c.table rows).filter
      fun r => r.parentID = baseID && r.isActive c).map (rowValues c) =
    (rows.filter fun r => r.parentID = baseID && r.wakes c stamp).map (rowValues c) := by
  by_cases harch : c.archivedAt.isSome
  · have hc : Archivable schema c true := ⟨hres, harch⟩
    have hnone : c.archivedAt.isNone = false := by
      rw [← Option.not_isSome, harch]
      rfl
    rw [hc.movedRows_base, if_pos rfl]
    cases stamp with
    | none => simp [movedBy, wakes]
    | some s =>
      rw [movedBy, filter_map, map_map]
      have hvals : rowValues c ∘ moved false baseID s = rowValues c := by
        funext r
        simp only [comp, rowValues, moved]
        split_ifs <;> rfl
      congr 1
      refine filter_congr fun r _ => ?_
      by_cases hp : r.parentID = baseID
      · simp only [comp, parentID_moved, isActive,
          archivedAt_moved, ChildRow.Reached, wakes, hnone, hp, decide_true,
          Bool.true_and, Bool.false_or, true_and, Bool.false_eq_true, if_false, Option.isSome_some]
        by_cases hs : r.archivedAt = some s
        · simp [hs]
        · simp [hs]
      · simp [hp]
  · have hnone : c.archivedAt.isNone = true := by
      simpa using harch
    have hmem := (resolveAggregateChild_some hres).1
    have hnot : c.table ∉ archivableTables schema.baseChildren := by
      intro ht
      obtain ⟨c', hc', harch', he⟩ := mem_archivableTables.1 ht
      obtain rfl := schema.table_injOn (mem_append_right _ hc') hmem he
      exact harch harch'
    rw [movedRows_of_not_mem hnot]
    simp [wakes, isActive, hnone]

theorem perm_posted_unloaded (hcols : (columns c.fields).Nodup) (hcarrier : CarrierUnmapped α c) :
    ((((postedOnto c db baseID items).1.filterMap (rowPosted c now) ++
        unloadedRows c db baseID).filter fun r => r.parentID = baseID && r.wakes c stamp).map
          (rowValues c) ++ (stranded c db baseID stamp items).map (itemValues c)).Perm
    (((postedOnto c db baseID items).1.filterMap Prod.snd).map (itemValues c) ++
      (returning c db baseID stamp now items).map (rowValues c)) := by
  have hparent : ∀ p ∈ (postedOnto c db baseID items).1, p.1.parentID = baseID := by
    intro p hp
    have hmem : p.1 ∈ (postedOnto c db baseID items).1.map Prod.fst := mem_map_of_mem hp
    rw [postedOnto, matchFirst_fst, baseChildRows] at hmem
    split_ifs at hmem
    · cases hmem
    · exact of_decide_eq_true (mem_filter.1 hmem).2
  have hunloaded : ((unloadedRows c db baseID).filter fun r =>
      r.parentID = baseID && r.wakes c stamp) = if c.fields = [] then
        (db.children c.table).rows.filter fun r => r.parentID = baseID && r.wakes c stamp
      else [] := by
    rw [unloadedRows]
    split_ifs
    · rfl
    · rw [filter_filter, filter_eq_nil_iff]
      intro r _ hr
      simp only [Bool.and_eq_true, decide_eq_true_eq, Bool.not_eq_true',
        decide_eq_false_iff_not] at hr
      exact hr.2 hr.1.1
  rw [filter_append, map_append, hunloaded, stranded, returning, map_append, ← append_assoc]
  refine List.Perm.trans ?_ ((perm_posted hcols hcarrier _ hparent).append_right _)
  rw [append_assoc, append_assoc]
  exact List.Perm.append_left _ perm_append_comm

end

/-! ### The post -/

/-- The id of a base row is that of its natural key. -/
def KeyedBases (env : Env) (base : BaseSchema) (db : Database) : Prop :=
  ∀ b ∈ db.bases.rows, b.id =
    env.deterministicBaseID (scalarString ((b.fields.get base.naturalIDColumn).getD .null))

/-- The identity that is loaded is the one the natural key of the loaded entity leads to. -/
theorem loadSharedBaseIdentity_root {env : Env} {newEntity : EntityFactory} {schema : SchemaDecl}
    {link : SharedBaseLink} (hlink : schema.sharedBase = some link) {db : Database}
    (hbases : KeyedBases env link.base db) {declared : List String}
    (hdecl : newEntity.aggregateChildren = some declared) {fresh entity : Entity α}
    (h : loadSharedBaseIdentity newEntity schema db fresh = .ok (entity, true)) :
    entity.root = some (constructed declared
      ((loadBaseChildren db link.base (env.baseIDOf link.base entity)).map some)) := by
  have hcol : link.base.naturalIDColumn ∈ columns link.base.fields := by
    by_contra hcol
    simp only [loadSharedBaseIdentity, hlink, if_pos hcol] at h
    cases h
  obtain ⟨b, hb, rfl⟩ := loadSharedBaseIdentity_ok hlink h
  have hid : env.baseIDOf link.base (identityEntity newEntity db link.base b : Entity α) =
      b.id := by
    rw [hbases b hb, Env.baseIDOf, sharedBaseValues, if_pos hcol]
    simp [identityEntity, if_pos hcol]
  rw [hid]
  simp [identityEntity, hdecl]

theorem entries_loaded {db : Database} {base : BaseSchema} {baseID : String}
    (hscan : ScansChildren α base.children)
    (htypes : (base.children.map ChildSchema.typeName).Nodup) {c : ChildSchema}
    (hc : c ∈ base.children) (declared : List String) :
    (constructed declared ((loadBaseChildren db base baseID : List α).map some)).entries
      c.typeName = ((baseChildRows db baseID c).map (scan c)).map
        fun x => ⟨x, .constructor, .constructor⟩ := by
  refine (entries_aggregateConstructor _ _ _).trans ?_
  rw [filterMap_map, ← loadBaseChildren_typeName hscan htypes hc]
  simp [AggregateRoot.entries]

theorem aggregateChildren_constructed (declared : List String) (items : List (Option α)) :
    (constructed declared items).aggregateChildren = declared :=
  foldl_frame AggregateRoot.aggregateChildren (fun ar item => by cases item <;> rfl) _ _

/-- **A role posted onto an existing identity.**  The active rows of a native child are the posted
items exactly if the rows that return unasked hold the values of the items that are stranded. -/
theorem active_iff_returning_stranded [LawfulCarrier α] {env : Env} {schema : TableSchema}
    {link : SharedBaseLink} (hlink : schema.sharedBase = some link) {c : ChildSchema}
    (hc : c ∈ link.base.children) (hscan : ScansChildren α link.base.children)
    (hcarrier : CarrierUnmapped α c) {db : Database}
    (hids : ∀ r ∈ (db.children c.table).rows, r.id ≠ "") (hbases : KeyedBases env link.base db)
    {newEntity : EntityFactory} {declared : List String}
    (hdecl : newEntity.aggregateChildren = some declared) (hallowed : c.typeName ∈ declared)
    {fresh entity : Entity α}
    (hload : loadSharedBaseIdentity newEntity schema.toSchemaDecl db fresh = .ok (entity, true))
    {items : List α} (hclass : ∀ x ∈ items, classNameOf x = c.typeName)
    (hdistinct : items.Pairwise fun x y => ¬isSameBusinessIdentity x y) {src : Entity α}
    (hroot : src.root = entity.root.map (·.replaceAggregateChildrenOf c.typeName items))
    (hkey : env.baseIDOf link.base src = env.baseIDOf link.base entity) {now : Instant}
    {db' : Database} (h : insertWrite env db schema.toSchemaDecl src now = .ok db') :
    let baseID := env.baseIDOf link.base entity
    let stamp := baseStamp env db schema.toSchemaDecl src false now
    ActiveAsPosted c baseID items db' ↔
      ((returning c db baseID stamp now items).map (rowValues c)).Perm
        ((stranded c db baseID stamp items).map (itemValues c)) := by
  intro baseID stamp
  have hbase : c ∈ schema.baseChildren := by
    rw [baseChildren, hlink]
    exact hc
  have hres := schema.resolveAggregateChild_base hbase
  have hid : env.sharedBaseID schema src = baseID := by
    rw [Env.sharedBaseID, hlink, Option.map_some, Option.getD_some, hkey]
  have htypes : (link.base.children.map ChildSchema.typeName).Nodup := by
    have hnodup := schema.types_nodup
    rw [allChildren, baseChildren, hlink, map_append] at hnodup
    exact (nodup_append.1 hnodup).2.1
  have hcols : (columns c.fields).Nodup := by
    have hkeys := (schema.elements_nodup c (mem_append_right _ hbase)).1
    exact (nodup_cons.1 hkeys.of_append_left.of_append_left).2
  -- the list that is written
  rw [loadSharedBaseIdentity_root hlink hbases hdecl hload, Option.map_some] at hroot
  obtain ⟨hlist, hkeys⟩ := entries_replaceAggregateChildrenOf
    (by rwa [aggregateChildren_constructed]) (entries_loaded hscan htypes hc declared)
    (keys_nodup_constructed declared _) hclass hdistinct
  -- the rows it leaves
  obtain ⟨-, -, db1, db2, root, rootID, hch, hdb1, hrows, -, -⟩ := childrenWritten_insertWrite h
  rw [hroot, hid] at hch
  obtain ⟨w, w', hw, hfold, hw'⟩ := writeChildren_table hkeys hres hch
  rw [hlist, if_pos rfl] at hfold
  obtain ⟨new, hperm, hvalues, hnew⟩ := rows_foldlM_replacedEntries
    (fun r => (hscan c hc r).2) hids (hw.trans (congrFun hdb1 _)) hfold
  have hrows' := hrows c.table
  rw [hw', hid] at hrows'
  have hone : ∀ r ∈ baseChildRows db baseID c, items.Pairwise fun y z =>
      ¬(isSameBusinessIdentity (scan c r : α) y ∧ isSameBusinessIdentity (scan c r : α) z) :=
    fun r _ => hdistinct.imp fun hne hboth => hne (same_trans (same_symm hboth.1) hboth.2)
  have hitems := (matchFirst_perm hone).map (itemValues c)
  rw [map_append] at hitems
  have hactive := (hperm.filter fun r => r.parentID = baseID && r.wakes c stamp).map (rowValues c)
  have hall : (new.filter fun r => r.parentID = baseID && r.wakes c stamp) = new := by
    refine filter_eq_self.2 fun r hr => ?_
    simp [hnew r hr, wakes, isActive]
  rw [filter_append, map_append, hall, hvalues] at hactive
  rw [ActiveAsPosted, hrows', active_movedRows hres]
  -- both sides end with the items that match none, and gain the stranded ones
  calc _ ↔ _ := (hactive.congr_left _).trans (hitems.congr_right _)
    _ ↔ _ := perm_append_right_iff _
    _ ↔ _ := (perm_append_right_iff ((stranded c db baseID stamp items).map (itemValues c))).symm
    _ ↔ _ := (perm_posted_unloaded hcols hcarrier).congr_left _
    _ ↔ _ := perm_append_left_iff _

instance : LawfulCarrier Address where
  same_refl x := by simp [isSameBusinessIdentity]
  same_symm h := by
    simp only [isSameBusinessIdentity, beq_iff_eq] at h ⊢
    exact h.symm
  same_trans h h' := by
    simp only [isSameBusinessIdentity, beq_iff_eq] at h h' ⊢
    exact h.trans h'
  withItemID_same h := by
    cases h
    simp [isSameBusinessIdentity]
  withItemID_getID h := by
    cases h
    rfl
  withItemID_isSome _ _ := rfl
  withItemID_className _ := rfl

/-- A home of a person. -/
def home : ChildSchema where
  typeName := "Address"
  table := "home"
  segment := "homes"
  idColumn := "id"
  parentIDColumn := "person_id"
  fields := [{ column := "street" }]
  archivedAt := some "archived_at"

/-- Students whose person has homes. -/
def resident : TableSchema where
  toSchemaDecl := { student with
    sharedBase := some ⟨{ person with children := [home] }, "person_id"⟩ }

def residents : EntityFactory where
  name := "Student"
  aggregateChildren := some ["Address"]

/-- The person with tax id 7, who has left Elm street and lives in Oak street. -/
def moved7 : Database where
  roots _ := .empty
  children t := if t = "home" then
      ⟨[{ id := "h1", parentID := "person-7", fields := [("street", .str "Elm")]
          archivedAt := some (.ms 3) },
        { id := "h2", parentID := "person-7", fields := [("street", .str "Oak")] }],
        by simp [Keyed.key]⟩
    else .empty
  bases := ⟨[{ id := "person-7", fields := [("tax_id", .str "7"), ("name", .str "Ann")] }], by simp⟩

/-- The student with tax id 7, posted with homes. -/
def postResident (items : List Address) (now : Instant) : Except WriteError Database := do
  let loaded ← loadSharedBaseIdentity residents resident.toSchemaDecl moved7 (roleOf7 "" 0 "Ann")
  insertWrite personEnv moved7 resident.toSchemaDecl
    { loaded.1 with
      root := loaded.1.root.map (·.replaceAggregateChildrenOf "Address" items)
      actionName := "GetUpsertable" } now

/-- The person as it is loaded. -/
def resident7 : Entity Address :=
  identityEntity residents moved7 { person with children := [home] }
    { id := "person-7", fields := [("tax_id", .str "7"), ("name", .str "Ann")] }

/-- A post that keeps Oak street and adds Ash street. -/
theorem homes_posted :
    ∃ db', postResident [{ street := "Oak" }, { street := "Ash" }] 5 = .ok db' ∧
      ActiveAsPosted home "person-7" [{ street := "Oak" }, { street := "Ash" : Address }] db' := by
  refine exists_ok (fun _ => True) (by decide +kernel) fun db' hinsert _ => ?_
  have hload : loadSharedBaseIdentity residents resident moved7
      (roleOf7 "" 0 "Ann") = .ok (resident7, true) := rfl
  rw [postResident, hload, bind_ok] at hinsert
  obtain ⟨loaded, hloaded, hinsert⟩ := hinsert
  cases hloaded
  have hlink : resident.sharedBase = some ⟨{ person with children := [home] }, "person_id"⟩ := rfl
  have hscan : ScansChildren Address [home] := by
    intro c hc r
    obtain rfl := mem_singleton.1 hc
    exact ⟨rfl, rfl⟩
  have hbases : KeyedBases personEnv { person with children := [home] } moved7 := by
    intro b hb
    obtain rfl := mem_singleton.1 hb
    rfl
  have hdistinct : [({ street := "Oak" } : Address), { street := "Ash" }].Pairwise
      fun x y => ¬isSameBusinessIdentity x y := by decide
  refine (active_iff_returning_stranded hlink mem_cons_self hscan
    (fun x y id h col hcol => by cases h; rfl) (by decide) hbases rfl mem_cons_self hload
    (fun x _ => rfl) hdistinct (by rfl) (by rfl) hinsert).2 ?_
  decide +kernel

/-- **A home the person comes back to stays archived**: the person has left Elm street and is posted
with it again. -/
theorem posted_child_stays_archived :
    (postResident [{ street := "Elm" }, { street := "Ash" }] 5).toOption.any fun db' =>
      !decide (ActiveAsPosted home "person-7" [{ street := "Elm" }, { street := "Ash" : Address }]
        db') ∧
      (db'.children "home").rows.map (fun r => (r.fields.get "street", r.archivedAt)) =
        [(some (.str "Elm"), some 3), (some (.str "Oak"), some 5), (some (.str "Ash"), none)] := by
  decide +kernel

end Omnicore.Write
