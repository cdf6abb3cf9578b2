import Mathlib.Data.List.Pairwise
import Omnicore.Write.History
import Omnicore.Write.RootStatement

/-!
# Sibling rows

An owner keeps some of its columns in sibling tables that share its primary key.  A sibling row
exists only while one of its columns holds a value: an insert skips a sibling whose columns are all
nil, an update of the whole entity removes its row, and an update of some fields, an archive and
an unarchive leave it as it is.  The sibling tables are kept beside the `Database` of the other
modules, which none of the statements on them reads.

## Main definitions

* `OwnerSchema` : a schema with its sibling tables.
* `insertSiblings`, `applySiblingUpdates` : the statements of the verbs.
* `commitOwner` : one transaction of an owner.

## Main results

* `writeSiblings_absent_iff` : which sibling rows are absent after a verb.
* `told_of_commit` : the event of a committed verb with a body is the one the engine builds.
-/

namespace Omnicore

namespace Write

open Omnicore.Core List RoleWrite Function Except

/-! ### Sibling tables -/

/-- A sibling with its table. -/
structure SiblingTable extends SiblingSchema where
  table : String

/-- A schema with sibling tables, each with a table of its own and some mapped columns. -/
structure OwnerSchema extends TableSchema where
  siblingTables : List SiblingTable
  siblings_eq : toSchemaDecl.siblings = siblingTables.map SiblingTable.toSiblingSchema
  siblingTables_nodup : (siblingTables.map SiblingTable.table).Nodup
  mapped : ∀ sib ∈ siblingTables, sib.fields ≠ []
  named : "" ∉ toSchemaDecl.ownColumns

section

variable {owner : OwnerSchema} {sib : SiblingTable} {c : String}

theorem siblings_flatMap :
    owner.siblings.flatMap (columns ·.fields) = owner.siblingTables.flatMap (columns ·.fields) := by
  rw [owner.siblings_eq, flatMap_map]

theorem siblingColumns_nodup (owner : OwnerSchema) :
    (owner.siblings.flatMap (columns ·.fields)).Nodup :=
  (rootColumns_nodup owner.toTableSchema).of_append_left.of_append_right

theorem mem_siblingColumns (hsib : sib ∈ owner.siblingTables) (hc : c ∈ columns sib.fields) :
    c ∈ owner.siblings.flatMap (columns ·.fields) := by
  rw [siblings_flatMap]
  exact mem_flatMap.2 ⟨sib, hsib, hc⟩

theorem sibling_of_column {s : SiblingTable} (hs : s ∈ owner.siblingTables)
    (hsib : sib ∈ owner.siblingTables) (hc : c ∈ columns s.fields)
    (hc' : c ∈ columns sib.fields) : s = sib := by
  have h := siblingColumns_nodup owner
  rw [siblings_flatMap, nodup_flatMap] at h
  by_contra hne
  have : Std.Symm (onFun List.Disjoint fun s : SiblingTable => columns s.fields) :=
    ⟨fun _ _ h _ hb ha => h ha hb⟩
  exact h.2.forall hs hsib hne hc hc'

end

/-- The rows of the sibling tables: by table, then by id. -/
abbrev SiblingRows := String → AssocMap String Fields

variable {α : Type}

/-- The columns a sibling row holds of an entity. -/
def siblingFields (sib : SiblingTable) (src : Entity α) : Fields :=
  writeFields sib.fields src.values

/-- The sibling has no value in an entity. -/
def NilIn (src : Entity α) (sib : SiblingTable) : Prop :=
  allNilFields sib.fields src.values src.jsonNull = true

instance (src : Entity α) : DecidablePred (NilIn src) := fun _ =>
  inferInstanceAs (Decidable (_ = true))

/-- Run a statement on the table of one sibling. -/
def onTable (f : SiblingTable → AssocMap String Fields → Except WriteError (AssocMap String Fields))
    (rows : SiblingRows) (sib : SiblingTable) : Except WriteError SiblingRows := do
  let t ← f sib (rows sib.table)
  return update rows sib.table t

/-- Insert one sibling row, unless its columns are all nil. -/
def insertSibling (src : Entity α) (id : String) (sib : SiblingTable)
    (t : AssocMap String Fields) : Except WriteError (AssocMap String Fields) :=
  if NilIn src sib then .ok t
  else if (t.get id).isSome then .error (.duplicateKey sib.table id)
  else .ok (t.set id (siblingFields sib src))

/-- Insert the materialized sibling rows. -/
def insertSiblings (owner : OwnerSchema) (src : Entity α) (id : String) (rows : SiblingRows) :
    Except WriteError SiblingRows :=
  owner.siblingTables.foldlM (onTable (insertSibling src id)) rows

/-- Upsert one sibling row.  Where its columns are all nil a write of the whole entity removes the
row, and one of some of its fields leaves it. -/
def applySiblingUpdate (src : Entity α) (id : String) (isPartial : Bool) (sib : SiblingTable)
    (t : AssocMap String Fields) : Except WriteError (AssocMap String Fields) :=
  if NilIn src sib then .ok (if isPartial then t else t.erase id)
  else .ok (t.set id (((t.get id).getD []).setAll (siblingFields sib src)))

/-- Upsert the sibling rows. -/
def applySiblingUpdates (owner : OwnerSchema) (src : Entity α) (id : String) (isPartial : Bool)
    (rows : SiblingRows) : Except WriteError SiblingRows :=
  owner.siblingTables.foldlM (onTable (applySiblingUpdate src id isPartial)) rows

/-- The verbs with a body. -/
inductive OwnerVerb where
  | insert
  | update (isPartial : Bool)
  | archive
  | unarchive
  deriving DecidableEq, Repr

/-- The verb on the other tables. -/
def OwnerVerb.roleVerb : OwnerVerb → RoleVerb
  | .insert => .insert
  | .update _ => .update
  | .archive => .archive
  | .unarchive => .unarchive

/-- What a verb does to the sibling tables: an archive verb writes them as an update of some
fields. -/
def writeSiblings (owner : OwnerSchema) (verb : OwnerVerb) (src : Entity α) (id : String)
    (rows : SiblingRows) : Except WriteError SiblingRows :=
  match verb with
  | .insert => insertSiblings owner src id rows
  | .update isPartial => applySiblingUpdates owner src id isPartial rows
  | .archive | .unarchive => applySiblingUpdates owner src id true rows

/-- One transaction of an owner: the rows it leaves and the event it tells. -/
def commitOwner [PersistentItem α] (env : Env) (owner : OwnerSchema) (db : Database)
    (rows : SiblingRows) (verb : OwnerVerb) (src : Entity α) (now : Instant) :
    Except WriteError (Database × SiblingRows × OutboxRow) := do
  let db' ← commit env db ⟨owner.toSchemaDecl, verb.roleVerb, src, now⟩
  match db'.outbox.getLast? with
  | none => .error (.failed "db: no event")
  | some ev => do
    let rows' ← writeSiblings owner verb src ev.aggregateID rows
    return (db', rows', ev)

/-! ### The rows after a verb -/

theorem foldlM_onTable {f : SiblingTable → AssocMap String Fields →
    Except WriteError (AssocMap String Fields)} {sibs : List SiblingTable}
    (hnodup : (sibs.map SiblingTable.table).Nodup) {rows rows' : SiblingRows}
    (h : sibs.foldlM (onTable f) rows = .ok rows') :
    (∀ sib ∈ sibs, f sib (rows sib.table) = .ok (rows' sib.table)) ∧
      ∀ t, t ∉ sibs.map SiblingTable.table → rows' t = rows t := by
  induction sibs generalizing rows with
  | nil =>
    cases h
    exact ⟨fun sib hsib => absurd hsib not_mem_nil, fun _ _ => rfl⟩
  | cons sib sibs ih =>
    obtain ⟨hsib, hnodup⟩ := nodup_cons.1 hnodup
    rw [foldlM_cons, bind_ok] at h
    obtain ⟨rows1, hstep, h⟩ := h
    simp only [onTable, bind_ok, pure_ok] at hstep
    obtain ⟨t, ht, rfl⟩ := hstep
    obtain ⟨hin, hout⟩ := ih hnodup h
    refine ⟨fun sib' hmem => ?_, fun k hk => ?_⟩
    · rcases mem_cons.1 hmem with rfl | hmem
      · rw [ht, hout _ hsib, update_self]
      · have hne : sib'.table ≠ sib.table := fun he => hsib (he ▸ mem_map_of_mem hmem)
        have := hin sib' hmem
        rwa [update_of_ne hne] at this
    · rw [map_cons, mem_cons, not_or] at hk
      rw [hout k hk.2, update_of_ne hk.1]

/-- A verb removes the row of a sibling whose columns are all nil. -/
def OwnerVerb.Removes (verb : OwnerVerb) : Prop := verb = .update false

/-- **The sibling rows after a verb**: one is absent exactly when its columns are all nil and it
was absent before or is removed. -/
theorem writeSiblings_absent_iff {owner : OwnerSchema} {verb : OwnerVerb} {src : Entity α}
    {id : String} {rows rows' : SiblingRows}
    (h : writeSiblings owner verb src id rows = .ok rows') {sib : SiblingTable}
    (hsib : sib ∈ owner.siblingTables) :
    (rows' sib.table).get id = none ↔ NilIn src sib ∧
      (verb.Removes ∨ (rows sib.table).get id = none) := by
  have hupdate : ∀ isPartial, applySiblingUpdate src id isPartial sib (rows sib.table) =
      .ok (rows' sib.table) → ((rows' sib.table).get id = none ↔
        NilIn src sib ∧
          (isPartial = false ∨ (rows sib.table).get id = none)) := by
    intro isPartial h
    rw [applySiblingUpdate] at h
    split_ifs at h with hnil hpart <;> rw [← ok.inj h]
    · simp [hnil, hpart]
    · simp [hnil, hpart, AssocMap.get_erase]
    · simp [hnil]
  have hrow := fun f => @foldlM_onTable f owner.siblingTables owner.siblingTables_nodup rows rows'
  cases verb with
  | insert =>
    have h := (hrow _ h).1 sib hsib
    rw [insertSibling] at h
    split_ifs at h with hnil hdup <;> rw [← ok.inj h]
    · simp [hnil, OwnerVerb.Removes]
    · simp [hnil]
  | update isPartial =>
    refine (hupdate isPartial ((hrow _ h).1 sib hsib)).trans ?_
    simp [OwnerVerb.Removes]
  | archive | unarchive =>
    refine (hupdate true ((hrow _ h).1 sib hsib)).trans ?_
    simp [OwnerVerb.Removes]

/-! ### The event of a verb -/

variable [PersistentItem α] {env : Env} {db db' : Database} {schema : SchemaDecl}
  {src : Entity α} {now : Instant}

/-- **The event of a committed verb** with a body. -/
theorem told_of_commit {verb : OwnerVerb} (hkeys : ∀ ar ∈ src.root, ar.aggregates.keys.Nodup)
    (h : commit env db ⟨schema, verb.roleVerb, src, now⟩ = .ok db') :
    ∃ ev, db'.outbox.getLast? = some ev ∧ Told schema verb.roleVerb src now ev := by
  cases verb with
  | insert =>
    simp only [commit, OwnerVerb.roleVerb, insertWrite] at h
    split at h
    · obtain ⟨ev, hev⟩ := insertAggregate_commits hkeys ‹_› h
      exact ⟨ev, hev.outbox, hev.told⟩
    · obtain ⟨ev, hev⟩ := insertWithBase_commits hkeys ‹_› h
      exact ⟨ev, hev.outbox, hev.told⟩
  | update isPartial =>
    simp only [commit, OwnerVerb.roleVerb, updateWrite] at h
    split at h
    · obtain ⟨ev, hev⟩ := updateAggregate_commits hkeys ‹_› h
      exact ⟨ev, hev.outbox, hev.told⟩
    · obtain ⟨_, _, _, root, _, _, _, _, -, -, hch, -, -, rfl⟩ := updateWithBase_ok h
      refine ⟨_, getLast?_concat, rfl, rfl, (by rintro ⟨⟩), root, {},
        writeFields schema.fields src.values, rfl, fun k hk => .inl (by simpa using hk),
        keys_nodup_writeChildren hkeys hch⟩
  | archive => exact archiveWrite_told hkeys true rfl h
  | unarchive => exact archiveWrite_told hkeys false rfl h

end Write

end Omnicore
