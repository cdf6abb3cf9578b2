import Omnicore.Read.AggregateLoader
import Omnicore.Write.Cascades

/-!
# An archive and its unarchive

The archive of a root puts its active children to sleep under one instant, and the children of the
base under the same instant when the base goes down with the role.  Loaded again and unarchived, the
root finds that instant in its row and the base in its own, and clears the rows that carry it.  What
has been asleep before stays asleep.

A base that has already been archived is the exception: an active role keeps its base active, so
the unarchive restores it although the archive has not moved it.

## Main results

* `unarchive_restores_iff` : an archive followed by an unarchive leaves every child row and the
  state of every base row as they were, exactly if the base was not archived.
* `archived_base_comes_back` : an archived role, archived again and restored.
-/

namespace Omnicore.Write

open Omnicore.Core Domain Read List AggregateLoader Function

variable {α : Type}

/-! ### What an archive verb leaves alone -/

section

variable {env : Env} {db db' : Database} {schema : SchemaDecl} {src : Entity α} {archive : Bool}
  {now : Instant}

/-- The columns of the base rows. -/
def Database.baseFields (db : Database) (id : String) : Option Fields :=
  (db.base id).map BaseRow.fields

open Database

theorem baseFields_updateBase {db : Database} {baseID : String} {p : BaseRow → Bool}
    {f : BaseRow → BaseRow} (hf : ∀ r ∈ db.base baseID, (f r).fields = r.fields) (id : String) :
    (db.updateBase baseID p f).baseFields id = db.baseFields id := by
  simp only [baseFields, base, updateBase, Table.find_modify, Option.map_map]
  refine Option.map_congr fun r hr => ?_
  simp only [comp]
  split_ifs with hp
  · have hid : r.id = baseID := by simp_all
    have hkey : r.id = id := (Table.find_eq_some_iff.1 hr).2
    exact hf r (hid ▸ hkey ▸ hr)
  · rfl

theorem baseFields_of_spine (h : db'.spine = db.spine) (id : String) :
    db'.baseFields id = db.baseFields id := by
  rw [baseFields, base_of_spine h, baseFields]

theorem TouchesBase.baseFields {baseID : String} (h : TouchesBase baseID db db') (id : String) :
    db'.baseFields id = db.baseFields id := by
  rcases h with he | ⟨p, f, he, hf⟩
  · exact baseFields_of_spine he id
  · exact (baseFields_of_spine he id).trans (baseFields_updateBase (fun r _ => hf r) id)

theorem AdvancesClock.baseFields (h : AdvancesClock db db') (id : String) :
    db'.baseFields id = db.baseFields id := by
  obtain rfl | ⟨baseID, rfl⟩ := h
  · rfl
  · exact baseFields_updateBase (fun _ _ => rfl) id

theorem archiveWrite_keeps [PersistentItem α]
    (h : archiveWrite env db schema src archive now = .ok db') :
    (∃ r, db.root schema.table src.id = some r) ∧
    db'.roots = (db.writeRoot schema.table src.id (archivedRootRow schema src archive now)).roots ∧
    ∀ id, db'.baseFields id = db.baseFields id := by
  obtain ⟨_, _, db₁, r, _, db₂, ids, db3, -, -, -, hspine, hr, hconv, hids, rfl⟩ :=
    archiveWrite_ok h
  have hadv := outboxMetaFor_advances hids
  refine ⟨⟨r, hr⟩, ?_, fun id => ?_⟩
  · refine (hadv.frame.1.trans (convergeBase_touches hconv).roots :).trans ?_
    simp [writeRoot, setRoots, roots_of_spine hspine]
  · exact (hadv.baseFields id).trans (((convergeBase_touches hconv).baseFields id).trans
      (baseFields_of_spine hspine id))

end

/-! ### The round trip -/

variable (env : Env) (schema : SchemaDecl) (db : Database) (src : Entity α)

/-- The identity of an entity is in the store. -/
def Identified : Prop := schema.sharedBase.isSome → (db.base (env.sharedBaseID schema src)).isSome

/-- No child of the root and no native child of its base carries the instant. -/
def NewInstant (now : Instant) : Prop :=
  (∀ c ∈ schema.children, ∀ r ∈ (db.children c.table).rows,
    r.parentID = src.id → r.archivedAt ≠ some now) ∧
  ∀ c ∈ schema.baseChildren, ∀ r ∈ (db.children c.table).rows,
    r.parentID = env.sharedBaseID schema src → r.archivedAt ≠ some now

/-- The shared base of the entity, if it can be archived, is not. -/
def BaseAwake : Prop :=
  schema.sharedBase.any (·.base.archivedAt.isSome) →
    (db.base (env.sharedBaseID schema src)).bind BaseRow.archivedAt = none

/-- Cleared again, the rows an archive has stamped with a new instant are what they were. -/
theorem movedRows_cancel {tables tables2 : List String} {ownerID table : String} {now : Instant}
    {rows : List ChildRow} (hnew : table ∈ tables ∨ table ∈ tables2 →
      ∀ r ∈ rows, r.parentID = ownerID → r.archivedAt ≠ some now)
    (hagain : table ∈ tables → ∀ r ∈ rows, r.parentID = ownerID → table ∈ tables2) :
    movedRows false tables2 ownerID (some now) table
      (movedRows true tables ownerID (some now) table rows) = rows := by
  simp only [movedRows]
  by_cases ht : table ∈ tables
  · rw [if_pos ht]
    by_cases ht2 : table ∈ tables2
    · rw [if_pos ht2, map_map]
      conv_rhs => rw [← map_id rows]
      exact map_congr_left fun r hr => ChildRow.moved_cancel (hnew (.inl ht) r hr)
    · rw [if_neg ht2]
      conv_rhs => rw [← map_id rows]
      exact map_congr_left fun r hr => if_neg fun hc => ht2 (hagain ht r hr hc.1)
  · split_ifs with ht2
    · conv_rhs => rw [← map_id rows]
      exact map_congr_left fun r hr => if_neg fun hc => hnew (.inr ht2) r hr hc.1 hc.2
    · rfl

section

variable [PersistentItem α] {env : Env} {l : AggregateLoader} {db db₁ db₂ : Database}
  {scope scope₂ : Scope} {cond cond₂ : RootRow → Bool} {src src₂ : Entity α} {now : Instant}

/-- The base columns of a loaded entity are those of the base row its role references. -/
theorem loadedValues_base {link : SharedBaseLink} (hlink : l.schema.sharedBase = some link)
    {c : String} (hc : c ∈ columns link.base.fields) (r : RootRow) :
    l.loadedValues db r c =
      ((db.baseFields (r.link l.schema)).map fun m => (m.get c).getD .null).getD
        (l.values c) := by
  have hown : c ∉ columns l.schema.fields := by
    intro hmem
    refine (l.schema.ownColumn_disjoint (k := c) ?_).1 ?_
    · simp only [SchemaDecl.ownColumns, mem_append, mem_cons]
      tauto
    · rwa [SchemaDecl.sharedBaseBusinessColumns, hlink]
  rw [loadedValues, if_neg hown, hlink]
  simp only [if_pos hc, Database.baseFields]
  cases db.base (r.link l.schema) <;> rfl

variable (h : l.findOne db scope cond = .ok src) (h₂ : l.findOne db₁ scope₂ cond₂ = .ok src₂)
  (hid : src₂.id = src.id)
include h h₂ hid

theorem reloaded_row {archive : Bool}
    (ha : archiveWrite env db l.schema src archive now = .ok db₁) :
    ∃ r r2, src.values = l.loadedValues db r ∧
      src₂.values = l.loadedValues db₁ r2 ∧
      scopeGate scope₂ l.schema r2 ∧
      r2 = RootRow.written (archivedRootRow l.schema src archive now) r ∧
      src₂.root = l.aggregateChildren.map fun declared =>
        constructed declared ((l.hydrateChildren db₁ scope₂ r2).map some) := by
  obtain ⟨r, hr, -, -, hrid, hvals, -⟩ := findOne_ok h
  obtain ⟨r2, hr2, -, hgate, hrid2, hvals2, hroot2⟩ := findOne_ok h₂
  obtain ⟨-, hroots, -⟩ := archiveWrite_keeps ha
  refine ⟨r, r2, hvals, hvals2, hgate, ?_, hroot2⟩
  have hfind : db₁.root l.schema.table src.id =
      some (RootRow.written (archivedRootRow l.schema src archive now) r) := by
    rw [Database.root, hroots, ← Database.root, Database.root_writeRoot, Database.root,
      Table.find_eq_some_iff.2 ⟨hr, hrid.symm⟩]
    rfl
  have hfind2 : db₁.root l.schema.table src.id = some r2 :=
    Table.find_eq_some_iff.2 ⟨hr2, (hid.symm.trans hrid2).symm⟩
  exact Option.some.inj (hfind2.symm.trans hfind)

theorem sharedBaseID_reloaded {archive : Bool}
    (ha : archiveWrite env db l.schema src archive now = .ok db₁) :
    env.sharedBaseID l.schema src₂ = env.sharedBaseID l.schema src := by
  obtain ⟨r, r2, hvals, hvals2, -, rfl, -⟩ := reloaded_row h h₂ hid ha
  obtain ⟨-, -, hfields⟩ := archiveWrite_keeps ha
  cases hlink : l.schema.sharedBase with
  | none => simp [Env.sharedBaseID, hlink]
  | some link =>
    simp only [Env.sharedBaseID, hlink, Option.map_some, Option.getD_some, Env.baseIDOf,
      sharedBaseValues]
    split_ifs with hcol
    · rw [hvals, hvals2, loadedValues_base hlink hcol, loadedValues_base hlink hcol, hfields]
      rfl
    · rfl

/-- The cascade of the unarchive reaches every table in which the archive has met a row. -/
theorem reached_again (hscan : ScansChildren α l.schema.children)
    (ha : archiveWrite env db l.schema src true now = .ok db₁) {table : String}
    (htable : table ∈ cascadeTables l.schema src.root) {r : ChildRow}
    (hr : r ∈ (db₁.children table).rows) (hparent : r.parentID = src.id) :
    table ∈ cascadeTables l.schema src₂.root := by
  obtain ⟨hsome, c, hc, hcol, rfl⟩ := of_mem_cascadeTables htable
  obtain ⟨_, -, -, -, -, -, hroot⟩ := findOne_ok h
  obtain ⟨_, row2, -, -, hgate, hrow2, hroot2⟩ := reloaded_row h h₂ hid ha
  obtain ⟨_, _, _, _, _, _, _, _, hstate, -⟩ := archiveWrite_ok ha
  -- an archived root is loaded under an archived scope, with all of its children
  have hscope : scope₂ ≠ .active := by
    rintro rfl
    simp [scopeGate, hstate, hrow2, RootRow.written, archivedRootRow] at hgate
  have hsome2 : src₂.root.isSome := by
    rw [hroot, Option.isSome_map] at hsome
    rwa [hroot2, Option.isSome_map]
  obtain ⟨ar, har⟩ := Option.isSome_iff_exists.1 hsome2
  rw [har]
  refine mem_cascadeTables hc hcol (typeName_mem_of_findOne h₂ hscan har hc hr
    (hparent.trans hid.symm) ?_)
  simp [childScopeFilter, hscope]

theorem unarchive_stamps (ha : archiveWrite env db l.schema src true now = .ok db₁)
    (now2 : Instant) :
    cascadeStamp db₁ l.schema src₂.id false now2 = some now ∧
    baseStamp env (db₁.writeRoot l.schema.table src₂.id
        (archivedRootRow l.schema src₂ false now2)) l.schema src₂ false
        now2 =
      if l.schema.sharedBase.any (·.base.archivedAt.isSome) then
        (db₁.baseArchivedAt (env.sharedBaseID l.schema src)).join
      else none := by
  constructor
  · obtain ⟨⟨r, hr⟩, hroots, -⟩ := archiveWrite_keeps ha
    rw [hid, cascadeStamp, Database.root, hroots, ← Database.root, Database.root_writeRoot, hr]
    rfl
  · rw [baseStamp, sharedBaseID_reloaded h h₂ hid ha]
    simp only [Bool.false_eq_true, if_false, Database.baseArchivedAt]
    congr 1
    change (db₁.base _).bind _ = _
    cases db₁.base (env.sharedBaseID l.schema src) <;> rfl

omit h h₂ hid

omit [PersistentItem α] in
/-- Of a base that was not archived, the unarchive restores what the archive has moved: its cascade
runs exactly if that of the archive has. -/
theorem baseStamps_agree {schema : SchemaDecl} {db' : Database} {base base2 : Option Instant}
    (hidentity : Identified env schema db src) (hawake : BaseAwake env schema db src)
    (hbase : base = baseStamp env db' schema src true now)
    (hstate : db₁.baseArchivedAt (env.sharedBaseID schema src) =
      (db.baseArchivedAt (env.sharedBaseID schema src)).map fun t =>
        if env.sharedBaseID schema src = env.sharedBaseID schema src ∧ base.isSome then
          if true then some (t.getD now) else none
        else t)
    (hbase2 : base2 = if schema.sharedBase.any (·.base.archivedAt.isSome) then
      (db₁.baseArchivedAt (env.sharedBaseID schema src)).join else none) :
    (base = none ∧ base2 = none) ∨ (base = some now ∧ base2 = some now ∧
      db.baseArchivedAt (env.sharedBaseID schema src) = some none) := by
  by_cases hany : schema.sharedBase.any (·.base.archivedAt.isSome)
  · obtain ⟨b, hb⟩ := Option.isSome_iff_exists.1 (hidentity (Option.isSome_of_any hany))
    have hbefore : db.baseArchivedAt (env.sharedBaseID schema src) = some none := by
      have hnone := hawake hany
      rw [hb] at hnone
      rw [Database.baseArchivedAt, hb, Option.map_some]
      exact congrArg some hnone
    rw [baseStamp, if_pos hany, if_pos rfl] at hbase
    rw [if_pos hany, hstate, hbefore] at hbase2
    split_ifs at hbase with hact
    · subst hbase
      exact .inl ⟨rfl, by simpa using hbase2⟩
    · subst hbase
      exact .inr ⟨rfl, by simpa using hbase2, hbefore⟩
  · rw [baseStamp, if_neg hany] at hbase
    rw [if_neg hany] at hbase2
    exact .inl ⟨hbase, hbase2⟩

end

/-- **An unarchive undoes an archive**, child rows and state of the base, exactly if the base was
not archived before: for every aggregate loaded from the store, archived at a new instant, loaded
again and unarchived with nothing in between. -/
theorem unarchive_restores_iff [PersistentItem α] {env : Env} {l : AggregateLoader}
    (hscan : ScansChildren α l.schema.children) {db db₁ db₂ : Database} {scope scope₂ : Scope}
    {cond cond₂ : RootRow → Bool} {src src₂ : Entity α} {now now₂ : Instant}
    (hload : l.findOne db scope cond = .ok src)
    (hidentity : Identified env l.schema.toSchemaDecl db src)
    (hnew : NewInstant env l.schema.toSchemaDecl db src now)
    (harchive : archiveWrite env db l.schema.toSchemaDecl src true now = .ok db₁)
    (hreload : l.findOne db₁ scope₂ cond₂ = .ok src₂) (hid : src₂.id = src.id)
    (hunarchive : archiveWrite env db₁ l.schema.toSchemaDecl src₂ false now₂ = .ok db₂) :
    ((∀ t, (db₂.children t).rows = (db.children t).rows) ∧
      ∀ id, db₂.baseArchivedAt id = db.baseArchivedAt id) ↔
    BaseAwake env l.schema.toSchemaDecl db src := by
  obtain ⟨own, base, rfl, hbase, hrows, hstate, -⟩ := archiveWrite_moves harchive
  obtain ⟨own2, base2, hown2, hbase2, hrows2, hstate2, -⟩ := archiveWrite_moves hunarchive
  obtain ⟨hstamp, hbaseStamp⟩ := unarchive_stamps hload hreload hid harchive now₂
  rw [hstamp] at hown2
  rw [hbaseStamp] at hbase2
  rw [sharedBaseID_reloaded hload hreload hid harchive, hid] at hrows2
  rw [sharedBaseID_reloaded hload hreload hid harchive] at hstate2
  set baseID := env.sharedBaseID l.schema src
  constructor
  · rintro ⟨-, hsame⟩ hany
    by_contra hne
    obtain ⟨t, ht⟩ := Option.ne_none_iff_exists'.1 hne
    obtain ⟨b, hb, hbt⟩ := Option.bind_eq_some_iff.1 ht
    have hbefore : db.baseArchivedAt baseID = some (some t) := by
      rw [Database.baseArchivedAt, hb, Option.map_some, hbt]
    -- neither an archive nor another role has moved the base
    have hbetween : db₁.baseArchivedAt baseID = some (some t) := by
      rw [hstate, hbefore]
      simp
    have hafter : db₂.baseArchivedAt baseID = some none := by
      rw [hstate2, hbetween, hbase2, if_pos hany, hbetween]
      simp
    rw [hsame, hbefore] at hafter
    cases hafter
  · intro hawake
    have hagree := baseStamps_agree hidentity hawake hbase (hstate baseID) hbase2
    refine ⟨fun t => ?_, fun id => ?_⟩
    · rw [hrows2, hrows, hown2]
      by_cases ht : t ∈ archivableTables l.schema.baseChildren
      · rw [movedRows_of_not_mem (not_mem_cascadeTables ht),
          movedRows_of_not_mem (not_mem_cascadeTables ht)]
        rcases hagree with ⟨rfl, rfl⟩ | ⟨rfl, rfl, -⟩
        · rfl
        · refine movedRows_cancel (fun _ => ?_) fun _ _ _ _ => ht
          obtain ⟨c, hc, -, rfl⟩ := mem_archivableTables.1 ht
          exact hnew.2 c hc
      · rw [movedRows_of_not_mem ht, movedRows_of_not_mem ht]
        refine movedRows_cancel (fun hor => ?_) fun hown r hr hparent => ?_
        · obtain ⟨c, hc, -, rfl⟩ := hor.elim (fun h => (of_mem_cascadeTables h).2)
            fun h => (of_mem_cascadeTables h).2
          exact hnew.1 c hc
        · refine reached_again hload hreload hid hscan harchive hown
            (r := r.moved true src.id now) ?_ (by simpa using hparent)
          rw [hrows, movedRows_of_not_mem ht]
          change _ ∈ movedRows true _ _ (some now) _ _
          rw [movedRows, if_pos hown]
          exact mem_map_of_mem hr
    · rw [hstate2, hstate, Option.map_map]
      rcases hagree with ⟨rfl, rfl⟩ | ⟨rfl, rfl, hnone⟩
      · simp [comp_def]
      · by_cases he : id = baseID
        · rw [he, hnone]
          simp
        · simp [he, comp_def]

/-- Load a root, archive it, load it again and unarchive it. -/
def archiveAndRestore (l : AggregateLoader) (id : String) (scope : Scope) (now now₂ : Instant)
    (db : Database) : Except WriteError Database := do
  let src : Entity Address ← l.findOne db scope (·.id = id)
  let db₁ ← archiveWrite env db l.schema.toSchemaDecl src true now
  let src₂ : Entity Address ← l.findOne db₁ .onlyArchived (·.id = id)
  archiveWrite env db₁ l.schema.toSchemaDecl src₂ false now₂

/-- Students with addresses of their own. -/
def lodger : TableSchema where
  toSchemaDecl := { student with
    children := [{ typeName := "Address", table := "address", segment := "addresses"
                   idColumn := "id", parentIDColumn := "student_id"
                   fields := [{ column := "street" }], archivedAt := some "archived_at" }] }

def lodgers : AggregateLoader where
  name := "Student"
  aggregateChildren := some ["Address"]
  schema := lodger

/-- A student of the person with tax id 7, with two addresses of which one is left. -/
def lodging (archivedAt : Option Instant) : Database where
  roots t := if t = "student" then
      ⟨[{ id := "s0", parentID := "person-7", fields := [("course", .str "Go")], archivedAt }],
        by simp⟩
    else .empty
  children t := if t = "address" then
      ⟨[{ id := "a1", parentID := "s0", fields := [("street", .str "Elm")], archivedAt },
        { id := "a2", parentID := "s0", fields := [("street", .str "Oak")]
          archivedAt := some (.ms 1) }], by simp [Keyed.key]⟩
    else .empty
  bases := ⟨[{ id := "person-7", fields := [("tax_id", .str "7"), ("name", .str "Ann")]
               archivedAt }], by simp⟩

/-- The address the student has left before the archive stays archived. -/
theorem lodger_restored :
    ∃ db₂, archiveAndRestore personEnv lodgers "s0" .active 5 6 (lodging none) = .ok db₂ ∧
      (db₂.children "address").rows = ((lodging none).children "address").rows ∧
      db₂.baseArchivedAt "person-7" = some none := by
  refine Except.exists_ok (fun _ => True) (by decide +kernel) fun db₂ hdb _ => ?_
  simp only [archiveAndRestore, Except.bind_ok] at hdb
  obtain ⟨src, hload, db₁, harchive, src₂, hreload, hunarchive⟩ := hdb
  obtain ⟨r, hr, -, -, hid, hvals, -⟩ := findOne_ok hload
  obtain ⟨r2, -, hcond, -, hid2, -⟩ := findOne_ok hreload
  obtain rfl := mem_singleton.1 (hr : r ∈ [_])
  have hbase : personEnv.sharedBaseID lodgers.schema src = "person-7" := by
    change "person-" ++ scalarString (src.values "tax_id") = _
    rw [hvals]
    decide
  have hnew : NewInstant personEnv lodgers.schema (lodging none) src 5 := by
    rw [NewInstant, hid, hbase]
    decide
  have hid' : src₂.id = src.id := by
    rw [hid2, hid]
    simpa using hcond
  have hscan : ScansChildren Address lodger.children := by
    intro c hc r
    obtain rfl := mem_singleton.1 hc
    exact ⟨rfl, rfl⟩
  obtain ⟨hrows, hstate⟩ := (unarchive_restores_iff hscan hload
    (fun _ => by rw [hbase]; decide) hnew harchive hreload hid' hunarchive).2
    fun _ => by rw [hbase]; decide
  exact ⟨hrows _, hstate _⟩

/-- **An archived base comes back**: a student that is archived with its person, loaded among the
archived ones, archived once more and restored. -/
theorem archived_base_comes_back :
    (lodging (some 2)).baseArchivedAt "person-7" = some (some 2) ∧
    ((archiveAndRestore personEnv lodgers "s0" .includeArchived 5 6
      (lodging (some 2))).toOption.map fun db₂ =>
        (db₂.baseArchivedAt "person-7", (db₂.children "address").rows.map ChildRow.archivedAt)) =
      some (some none, [some 2, some 1]) := by
  decide +kernel

end Omnicore.Write
