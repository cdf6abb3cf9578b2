import Omnicore.Write.BaseLifecycle

/-!
# The rows the cascades move

The cascade of an archive stamps the children of an owner that are active, the cascade of an
unarchive clears those that carry the owner's stamp.  An archive verb runs two of them: one over the
own child tables of the tracked types, around the stamp of the root, and one over the tables of the
base's native children, around the stamp of the base.

## Main definitions

* `ChildRow.Reached`, `ChildRow.moved` : a row before and after a cascade of its owner.
* `baseStamp` : the stamp the second cascade acts on.

## Main results

* `ChildRow.moved_cancel` : an unarchive undoes what an archive has moved.
* `archiveWrite_moves` : the child rows and the base rows after an archive verb, and the blocks of
  its event.
-/

namespace Omnicore.Write

open Omnicore.Core Domain List Database Function

variable {α : Type}

/-! ### One row -/

/-- The cascade of an owner reaches a row: an active one of it when it archives, one that carries
its stamp when it restores. -/
def ChildRow.Reached (archive : Bool) (ownerID : String) (stamp : Instant) (r : ChildRow) : Prop :=
  r.parentID = ownerID ∧ r.archivedAt = if archive then none else some stamp

open ChildRow

instance (archive : Bool) (ownerID : String) (stamp : Instant) (r : ChildRow) :
    Decidable (r.Reached archive ownerID stamp) :=
  inferInstanceAs (Decidable (_ ∧ _))

/-- A child row after a cascade of an owner. -/
def ChildRow.moved (archive : Bool) (ownerID : String) (stamp : Instant) (r : ChildRow) :
    ChildRow :=
  if r.Reached archive ownerID stamp then
    { r with archivedAt := if archive then some stamp else none }
  else r

namespace ChildRow

variable {archive : Bool} {ownerID : String} {stamp : Instant} {r : ChildRow}

@[simp] theorem id_moved : (r.moved archive ownerID stamp).id = r.id := by
  rw [moved]
  split_ifs <;> rfl

@[simp] theorem parentID_moved : (r.moved archive ownerID stamp).parentID = r.parentID := by
  rw [moved]
  split_ifs <;> rfl

theorem archivedAt_moved : (r.moved archive ownerID stamp).archivedAt =
    if r.Reached archive ownerID stamp then if archive then some stamp else none
    else r.archivedAt := by
  rw [moved]
  split_ifs <;> rfl

theorem not_reached_moved : ¬(r.moved archive ownerID stamp).Reached archive ownerID stamp := by
  intro h
  have hstate := h.2
  rw [archivedAt_moved] at hstate
  by_cases hr : r.Reached archive ownerID stamp
  · rw [if_pos hr] at hstate
    cases archive <;> cases hstate
  · rw [if_neg hr] at hstate
    exact hr ⟨parentID_moved.symm.trans h.1, hstate⟩

theorem moved_moved : (r.moved archive ownerID stamp).moved archive ownerID stamp =
    r.moved archive ownerID stamp :=
  if_neg not_reached_moved

theorem moved_cancel (h : r.parentID = ownerID → r.archivedAt ≠ some stamp) :
    (r.moved true ownerID stamp).moved false ownerID stamp = r := by
  by_cases hr : r.Reached true ownerID stamp
  · have hmoved : r.moved true ownerID stamp = { r with archivedAt := some stamp } := if_pos hr
    rw [hmoved, moved, if_pos ⟨hr.1, rfl⟩]
    obtain ⟨id, parentID, fields, archivedAt⟩ := r
    obtain ⟨-, rfl⟩ := hr
    rfl
  · have hmoved : r.moved true ownerID stamp = r := if_neg hr
    rw [hmoved]
    exact if_neg fun hc => h hc.1 hc.2

end ChildRow

/-- The rows of a table after a cascade over some tables; one without a stamp has not run. -/
def movedRows (archive : Bool) (tables : List String) (ownerID : String) (stamp : Option Instant)
    (table : String) (rows : List ChildRow) : List ChildRow :=
  match stamp with
  | none => rows
  | some s => if table ∈ tables then rows.map (moved archive ownerID s) else rows

theorem movedRows_of_not_mem {archive : Bool} {tables : List String} {ownerID table : String}
    {stamp : Option Instant} {rows : List ChildRow} (h : table ∉ tables) :
    movedRows archive tables ownerID stamp table rows = rows := by
  cases stamp with
  | none => rfl
  | some s => exact if_neg h

/-! ### One statement and a loop of them -/

section

variable (db : Database) (ownerID table : String)

theorem rows_cascade (archive : Bool) (child : ChildSchema) (stamp : Instant) :
    ((bif archive then archiveCascade db child ownerID stamp
      else unarchiveCascade db child ownerID (some stamp)).children table).rows =
      if child.archivedAt.isSome ∧ child.table = table then
        (db.children table).rows.map (moved archive ownerID stamp)
      else (db.children table).rows := by
  cases hcol : child.archivedAt with
  | none => cases archive <;> simp [archiveCascade, unarchiveCascade, hcol]
  | some col =>
    by_cases ht : child.table = table
    · subst ht
      cases archive <;>
      · simp only [cond_true, cond_false, archiveCascade, unarchiveCascade, hcol,
          Option.isNone_some, Bool.false_eq_true, if_false, or_self, updateChildRows,
          setChildren, update_self, Table.modify]
        refine map_congr_left fun r _ => ?_
        simp [moved, ChildRow.Reached]
    · rw [if_neg fun h => ht h.2]
      cases archive <;>
        simp [archiveCascade, unarchiveCascade, hcol, updateChildRows,
          setChildren, update_of_ne (Ne.symm ht)]

/-- The rows after a loop of statements that each either move the rows of a table or leave them. -/
theorem rows_foldl {β : Type} {f : Database → β → Database} {p : β → Prop} [DecidablePred p]
    {g : ChildRow → ChildRow} (hg : ∀ r, g (g r) = g r)
    (hf : ∀ db b, ((f db b).children table).rows =
      if p b then (db.children table).rows.map g else (db.children table).rows) (l : List β) :
    ((l.foldl f db).children table).rows =
      if ∃ b ∈ l, p b then (db.children table).rows.map g else (db.children table).rows := by
  induction l generalizing db with
  | nil => simp
  | cons b l ih =>
    rw [foldl_cons, ih, hf]
    by_cases hb : p b
    · simp only [hb, if_true, mem_cons, exists_eq_or_imp, true_or]
      split_ifs
      · simp [comp_def, hg]
      · rfl
    · simp [hb]

end

/-! ### The two cascades of an archive verb -/

/-- The tables of archivable children. -/
def archivableTables (children : List ChildSchema) : List String :=
  (children.filter (·.archivedAt.isSome)).map ChildSchema.table

/-- The own child tables the cascade of an archive verb reaches. -/
def cascadeTables (schema : SchemaDecl) (root : Option (AggregateRoot α)) : List String :=
  match root with
  | none => []
  | some ar => archivableTables
      (ar.aggregates.keys.filterMap fun t => schema.children.find? (·.typeName = t))

theorem mem_archivableTables {children : List ChildSchema} {table : String} :
    table ∈ archivableTables children ↔ ∃ c ∈ children, c.archivedAt.isSome ∧ c.table = table := by
  simp [archivableTables, and_assoc]

theorem rows_cascadeChildren (db : Database) (schema : SchemaDecl)
    (root : Option (AggregateRoot α)) (id : String) (archive : Bool) (cascade : Option Instant)
    (table : String) :
    ((cascadeChildren db schema root id archive cascade).children table).rows =
      movedRows archive (cascadeTables schema root) id cascade table
        (db.children table).rows := by
  cases root with
  | none => cases cascade <;> simp [cascadeChildren, movedRows, cascadeTables]
  | some ar =>
    cases cascade with
    | none => rfl
    | some stamp =>
      refine (rows_foldl db table (p := fun tracked : String × List (AggregateItemEntry α) =>
          ∃ c ∈ schema.children.find? (fun c : ChildSchema => c.typeName = tracked.1),
            c.archivedAt.isSome ∧ c.table = table)
        (g := moved archive id stamp) (fun r => moved_moved)
        (fun db tracked => ?_) ar.aggregates).trans ?_
      · cases hc : schema.children.find? (·.typeName = tracked.1) with
        | none => simp
        | some c =>
          have := rows_cascade db id table archive c stamp
          cases archive <;> simpa using this
      · refine if_congr ?_ rfl rfl
        simp only [cascadeTables, mem_archivableTables, AssocMap.keys, mem_filterMap, mem_map]
        constructor
        · rintro ⟨tracked, hmem, c, hc, h⟩
          exact ⟨c, ⟨_, ⟨tracked, hmem, rfl⟩, hc⟩, h⟩
        · rintro ⟨c, ⟨_, ⟨tracked, hmem, rfl⟩, hc⟩, h⟩
          exact ⟨tracked, hmem, c, hc, h⟩

section

variable {env : Env} {db db' : Database} {schema : SchemaDecl} {src : Entity α} {archive : Bool}
  {now : Instant} {st : Option Instant}

theorem baseStamp_congr (hroots : db'.roots = db.roots) (hbases : db'.bases = db.bases) :
    baseStamp env db' schema src archive now = baseStamp env db schema src archive now := by
  simp [baseStamp, anyActiveRole_congr hroots, base, hbases]

theorem convergeBase_moves
    (h : convergeBaseAfterArchiveWrite env db schema src archive now = .ok (st, db')) (t : String) :
    (db'.children t).rows = movedRows archive (archivableTables schema.baseChildren)
      (env.sharedBaseID schema src) st t (db.children t).rows := by
  obtain ⟨-, ⟨rfl, rfl⟩ | ⟨link, stamp, hlink, rfl, -, rfl⟩⟩ := convergeBase_cases h
  · rfl
  · have hchildren : schema.baseChildren = link.base.children := by
      simp [SchemaDecl.baseChildren, hlink]
    rw [hchildren]
    have hfold := fun db => rows_foldl db t
      (p := fun c : ChildSchema => c.archivedAt.isSome ∧ c.table = t)
      (fun r => moved_moved)
      (fun db c => rows_cascade db (env.sharedBaseID schema src) t archive c stamp)
      link.base.children
    simp only [movedRows, mem_archivableTables]
    cases archive
    exacts [hfold db, hfold (db.updateBase ..)]

/-- **The child rows after an archive verb**: the own children of the tracked types have followed
the stamp of the root, the native children of the base that of the base; and the base rows. -/
theorem archiveWrite_moves [PersistentItem α]
    (h : archiveWrite env db schema src archive now = .ok db') :
    ∃ own base,
      own = cascadeStamp db schema src.id archive now ∧
      base = baseStamp env (db.writeRoot schema.table src.id
        (archivedRootRow schema src archive now)) schema src archive now ∧
      (∀ t, (db'.children t).rows = movedRows archive (archivableTables schema.baseChildren)
        (env.sharedBaseID schema src) base t
          (movedRows archive (cascadeTables schema src.root) src.id own t (db.children t).rows)) ∧
      (∀ id, db'.baseArchivedAt id = (db.baseArchivedAt id).map fun t =>
        if id = env.sharedBaseID schema src ∧ base.isSome then
          if archive then some (t.getD now) else none
        else t) ∧
      ∃ ev, db'.outbox = db.outbox ++ [ev] ∧ ev.payload.children =
        childrenBlocks schema src.root (archiveEvent archive) { own, base } false ∧
        ev.payload.baseChildren =
          childrenBlocks schema src.root (archiveEvent archive) { own, base } true := by
  obtain ⟨col, own, _, _, base, db2, ids, db3, -, rfl, rfl, hspine, -, hconv, hids, rfl⟩ :=
    archiveWrite_ok h
  have hrows := convergeBase_moves hconv
  have hbase := baseArchivedAt_convergeBase hconv
  obtain ⟨-, hchildren, houtbox, hstate⟩ := (outboxMetaFor_advances hids).frame
  have hout2 : db2.outbox = db.outbox := by
    exact (convergeBase_touches hconv).outbox.trans (congrArg (·.2.2.2) hspine)
  refine ⟨_, base, rfl, ?_, fun t => ?_, fun id => ?_, _,
    congrArg (· ++ [_]) (houtbox.trans hout2), rfl, rfl⟩
  · refine (convergeBase_cases hconv).1.trans (baseStamp_congr ?_ ?_)
    · simp [writeRoot, setRoots, roots_of_spine hspine]
    · exact (bases_of_spine hspine :)
  · refine (congrArg (fun f : String → Table ChildRow => (f t).rows) hchildren).trans ?_
    rw [hrows]
    congr 1
    exact rows_cascadeChildren ..
  · refine (hstate id).trans ((hbase id).trans ?_)
    congr 1
    exact baseArchivedAt_of_spine hspine id

end

/-! ### The tables the two cascades reach -/

section

variable {schema : TableSchema} {root : Option (AggregateRoot α)} {table : String}

theorem of_mem_cascadeTables {schema : SchemaDecl} (h : table ∈ cascadeTables schema root) :
    root.isSome ∧ ∃ c ∈ schema.children, c.archivedAt.isSome ∧ c.table = table := by
  cases root with
  | none => cases h
  | some ar =>
    simp only [cascadeTables, mem_archivableTables, mem_filterMap] at h
    obtain ⟨c, ⟨t, -, hc⟩, hcol, rfl⟩ := h
    exact ⟨rfl, c, mem_of_find?_eq_some hc, hcol, rfl⟩

/-- The cascade reaches the table of every archivable own child whose type is tracked. -/
theorem mem_cascadeTables {ar : AggregateRoot α} {c : ChildSchema} (hc : c ∈ schema.children)
    (hcol : c.archivedAt.isSome) (hkey : c.typeName ∈ ar.aggregates.keys) :
    c.table ∈ cascadeTables schema (some ar) := by
  rw [cascadeTables, mem_archivableTables]
  refine ⟨c, mem_filterMap.2 ⟨c.typeName, hkey, ?_⟩, hcol, rfl⟩
  cases hfind : schema.children.find? (·.typeName = c.typeName) with
  | none =>
    rw [find?_eq_none] at hfind
    exact absurd (by simp) (hfind c hc)
  | some c' =>
    have hname : c'.typeName = c.typeName := by simpa using find?_some hfind
    rw [schema.typeName_injOn (mem_append_left _ (mem_of_find?_eq_some hfind))
      (mem_append_left _ hc) hname]

theorem not_mem_cascadeTables
    (h : table ∈ archivableTables schema.baseChildren) : table ∉ cascadeTables schema root := by
  intro hown
  obtain ⟨-, c, hc, -, rfl⟩ := of_mem_cascadeTables hown
  obtain ⟨c', hc', -, he⟩ := mem_archivableTables.1 h
  exact schema.own_table_ne_base hc hc' he.symm

end

end Omnicore.Write
