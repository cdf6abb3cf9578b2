import Omnicore.Write.IdentityClock
import Omnicore.Write.IdentityEvents

/-!
# The history of an aggregate

The committed writes of one aggregate, from its insert on, with the event each of them tells.
Between two of them other transactions may do anything but touch its row or take the clock of its
identity back.

## Main definitions

* `historyMachine` : the writes of one aggregate, among those of others.
* `Told` : an event as the write engine builds it.

## Main results

* `HistorySound.step` : along a history the revisions of the events grow, and every event names the
  birth and the identity of the row.
-/

namespace Omnicore.Write

open Omnicore.Core Domain List Database RootRow RoleWrite AssocMap Except

variable {α : Type}

/-- The event a verb tells. -/
def RoleVerb.eventType : RoleVerb → EventType
  | .insert => .inserted
  | .update => .updated
  | .archive => .archived
  | .unarchive => .unarchived
  | .delete _ => .deleted

/-- The rows, and the events of one aggregate so far. -/
structure HistoryState where
  db : Database
  events : List OutboxRow := []

/-- A write of the aggregate, or what other transactions have made of the rows. -/
inductive HistoryAction (α : Type) where
  | write (verb : RoleVerb) (src : Entity α) (now : Instant)
  | other (db : Database)

/-- Other transactions leave the row alone, and its identity no further back. -/
def LeavesAlone (schema : SchemaDecl) (id : String) (db db' : Database) : Prop :=
  db'.root schema.table id = db.root schema.table id ∧
  ∀ r ∈ db.root schema.table id,
    db.readBaseRevision (r.link schema) ≤ db'.readBaseRevision (r.link schema)

instance (schema : SchemaDecl) (id : String) (db db' : Database) :
    Decidable (LeavesAlone schema id db db') :=
  inferInstanceAs (Decidable (_ ∧ _))

/-- What a write of the aggregate is handed: an entity with one list per child type, new for the
insert, and later one of the row with the natural key of its identity. -/
def Admits (env : Env) (schema : SchemaDecl) (id : String) (s : HistoryState) (verb : RoleVerb)
    (src : Entity α) (now : Instant) : Prop :=
  (∀ ar ∈ src.root, ar.aggregates.keys.Nodup) ∧
  match verb with
  | .insert => s.events = []
  | .delete _ => False
  | .update | .archive | .unarchive => s.events ≠ [] ∧ src.id = id ∧
    ofRow env s.db ⟨schema, verb, src, now⟩ = true ∧
    ∀ link ∈ schema.sharedBase, (sharedBaseValues link.base src).2 ≠ ""

instance (env : Env) (schema : SchemaDecl) (id : String) (s : HistoryState) (verb : RoleVerb)
    (src : Entity α) (now : Instant) : Decidable (Admits env schema id s verb src now) := by
  unfold Admits
  cases verb <;> infer_instance

/-- The history of the aggregate `id`. -/
def historyMachine [PersistentItem α] (env : Env) (schema : SchemaDecl) (id : String) :
    Machine HistoryState (HistoryAction α) where
  step s a :=
    match a with
    | .write verb src now =>
      if Admits env schema id s verb src now then
        match commit env s.db ⟨schema, verb, src, now⟩ with
        | .error _ => none
        | .ok db => db.outbox.getLast?.bind fun ev =>
          if ev.aggregateID = id then some { db, events := s.events ++ [ev] } else none
      else none
    | .other db => if LeavesAlone schema id s.db db then some { s with db } else none

/-! ### Events as the engine builds them -/

section

variable [PersistentItem α]

/-- The payload of an event is the one the engine builds for its verb from some entity.  An insert
tells the instant of its row's birth. -/
def Told (schema : SchemaDecl) (verb : RoleVerb) (src : Entity α) (now : Instant)
    (ev : OutboxRow) : Prop :=
  ev.eventType = verb.eventType ∧ ev.payload.ids.id = ev.aggregateID ∧
  (verb = .insert → ev.payload.ids.createdAt = schema.createdAt.map fun _ => now) ∧
  ∃ root stamps rootFields,
    ev.payload = buildWritePayload schema src root verb.eventType now stamps rootFields
      ev.payload.ids ∧
    (∀ k ∈ keys rootFields, k ∈ columns schema.fields ∨ k ∈ schema.archivedAt ∨
      verb = .insert ∧ schema.sharedPK = false ∧ k ∈ schema.sharedBase.map (·.parentIDColumn)) ∧
    ∀ ar ∈ root, ar.aggregates.keys.Nodup

/-- The row of the aggregate after a write. -/
def RowAfter (schema : SchemaDecl) (verb : RoleVerb) (now : Instant) (old : Option RootRow)
    (r : RootRow) : Prop :=
  match verb with
  | .insert => r.revision = 1 ∧ r.createdAt = schema.createdAt.map fun _ => now
  | _ => ∃ r₀ ∈ old, r.id = r₀.id ∧ r.parentID = r₀.parentID ∧ r.createdAt = r₀.createdAt ∧
    r.revision = r₀.revision + 1 ∧ (verb = .unarchive → r.archivedAt = none)

/-- The clock of an identity over a write: the event lies between what it was and what it is. -/
def ClockAfter (baseID : String) (db db' : Database) (ev : OutboxRow) : Prop :=
  db.readBaseRevision baseID < ev.payload.ids.baseRevision ∧
    ev.payload.ids.baseRevision ≤ db'.readBaseRevision baseID

/-- What a committed write of the aggregate has done. -/
structure Commits (schema : SchemaDecl) (verb : RoleVerb) (src : Entity α) (now : Instant)
    (db db' : Database) (ev : OutboxRow) : Prop where
  outbox : db'.outbox.getLast? = some ev
  told : Told schema verb src now ev
  row : ∃ r, db'.root schema.table ev.aggregateID = some r ∧
    RowAfter schema verb now (db.root schema.table ev.aggregateID) r ∧
    ev.payload.ids.revision = r.revision ∧ ev.payload.ids.createdAt = r.createdAt ∧
    ∀ link, schema.sharedBase = some link → ev.payload.ids.baseID = r.link schema ∧
      ((verb = .insert ∨ 0 < db.readBaseRevision (r.link schema)) →
        ClockAfter (r.link schema) db db' ev)

/-! ### What the statements leave alone -/

variable {env : Env} {db db' : Database} {schema : SchemaDecl} {src : Entity α} {now : Instant}

theorem keys_nodup_assignAggregateItemID {ar : AggregateRoot α} (h : ar.aggregates.keys.Nodup)
    (item : α) (id : String) : (ar.assignAggregateItemID item id).aggregates.keys.Nodup := by
  rw [AggregateRoot.assignAggregateItemID]
  split
  · exact h
  · exact keys_set_nodup h

theorem keys_nodup_writeChildren {root root' : Option (AggregateRoot α)} {rootID baseID : String}
    (hroot : ∀ ar ∈ root, ar.aggregates.keys.Nodup)
    (h : writeChildren env db schema root rootID baseID now = .ok (db', root')) :
    ∀ ar ∈ root', ar.aggregates.keys.Nodup := by
  cases root with
  | none => cases h; exact nofun
  | some ar =>
    obtain ⟨ar', rfl, hkeys⟩ := writeChildren_invariant
      (P := fun _ (ar : AggregateRoot α) => ar.aggregates.keys.Nodup) (hroot ar rfl)
      (fun _ _ _ hw h => by
        obtain he | ⟨item, id, he⟩ := (writeChild_frame h).2.2 <;> rw [he]
        exacts [hw, keys_nodup_assignAggregateItemID hw _ _]) h
    rintro _ ⟨⟩
    exact hkeys

omit [PersistentItem α]

/-- The identity of an event: what the row says, and the clock of the base, which it advances. -/
theorem outboxMetaFor_spec {id : String} {ids : OutboxMeta}
    (h : outboxMetaFor env db schema src id = (ids, db')) :
    ids.id = id ∧ ids.revision = (db.readRevisionCreatedAt schema.table id).1 ∧
      ids.createdAt = (db.readRevisionCreatedAt schema.table id).2 ∧ db'.roots = db.roots ∧
      ∀ link, schema.sharedBase = some link → (sharedBaseValues link.base src).2 ≠ "" →
        ids.baseID = env.baseIDOf link.base src ∧
        ids.baseRevision = db'.readBaseRevision (env.baseIDOf link.base src) := by
  simp only [outboxMetaFor, fillBaseMeta] at h
  split at h
  · next hs =>
    cases h
    exact ⟨rfl, rfl, rfl, rfl, fun link hlink => by rw [hs] at hlink; cases hlink⟩
  · next link hs =>
    split_ifs at h with hnk
    · cases h
      refine ⟨rfl, rfl, rfl, rfl, fun link' hlink hne => ?_⟩
      rw [hs] at hlink
      cases hlink
      exact absurd hnk hne
    · cases h
      refine ⟨rfl, rfl, rfl, rfl, fun link' hlink _ => ?_⟩
      rw [hs] at hlink
      cases hlink
      exact ⟨rfl, rfl⟩

theorem Revises.readBaseRevision {baseID : String} {k : ℕ} (h : Revises baseID k db db')
    (hpos : 0 < db.readBaseRevision baseID) :
    db.readBaseRevision baseID + k ≤ db'.readBaseRevision baseID := by
  cases hb : db.base baseID with
  | none => simp [Database.readBaseRevision, hb] at hpos
  | some b =>
    obtain ⟨b', hb', hle⟩ := h.base_some hb
    simpa [Database.readBaseRevision, hb, hb'] using hle

theorem upsertSharedBase_clock {base : BaseSchema} {baseID : String} {fields : Fields} {rev : ℕ}
    (h : upsertSharedBase db base baseID fields (db.base baseID).isSome now = .ok (rev, db')) :
    rev = db'.readBaseRevision baseID ∧ db.readBaseRevision baseID < rev := by
  have hrev := (upsertSharedBase_ok h).2.2.1
  refine ⟨hrev.symm, ?_⟩
  rw [← hrev]
  obtain ⟨hold, hnew⟩ := upsertSharedBase_revises h
  cases hb : db.base baseID with
  | none =>
    obtain ⟨-, b, hb', hone⟩ := hnew (by rw [hb]; rfl)
    simp [readBaseRevision, hb, hb', hone]
  | some b =>
    obtain ⟨b', hb', hle⟩ := (hold (by rw [hb]; rfl)).base_some hb
    simpa [readBaseRevision, hb, hb'] using Nat.lt_of_succ_le hle

theorem Database.root_insertRoot {table : String} {row : RootRow}
    (h : db.insertRoot table row = .ok db') : db'.root table row.id = some row := by
  rw [insertRoot] at h
  split at h
  · rename_i rows hrows
    cases h
    simp only [root, setRoots, Function.update_self]
    exact (Table.find_insert hrows row.id).trans (if_pos rfl)
  · cases h

theorem Database.root_of_roots (h : db'.roots = db.roots) (table id : String) :
    db'.root table id = db.root table id := by
  rw [root, h, root]

end

/-! ### The verbs -/

section

variable [PersistentItem α] {env : Env} {db db' : Database} {schema : SchemaDecl}
  {src : Entity α} {now : Instant}

variable (hkeys : ∀ ar ∈ src.root, ar.aggregates.keys.Nodup)
include hkeys

theorem insertAggregate_commits (hs : schema.sharedBase = none)
    (h : insertAggregate env db schema src now = .ok db') :
    ∃ ev, Commits schema .insert src now db db' ev := by
  simp only [insertAggregate, bind_ok, pure_ok, Prod.exists] at h
  obtain ⟨db1, hroot, db2, root, hch, rfl⟩ := h
  have hrow : db2.root schema.table (env.newWriteID db.minted) = some (newRootRow schema src
      (env.newWriteID db.minted) "" now) :=
    (root_of_roots (roots_of_spine (spine_writeChildren hch)) ..).trans
      (root_insertRoot hroot)
  refine ⟨⟨schema.table, .inserted, env.newWriteID db.minted, _⟩, getLast?_concat,
    ⟨rfl, rfl, fun _ => rfl, root, {}, _, rfl, fun k hk => .inl (by simpa using hk),
      keys_nodup_writeChildren hkeys hch⟩, _, hrow, ⟨rfl, rfl⟩, rfl, rfl, fun link hlink => ?_⟩
  rw [hs] at hlink
  cases hlink

variable {link : SharedBaseLink} {id : String} {s : HistoryState} {a : HistoryAction α}

theorem insertWithBase_commits (hs : schema.sharedBase = some link)
    (h : insertWithBase env db schema link src now = .ok db') :
    ∃ ev, Commits schema .insert src now db db' ev := by
  obtain ⟨baseID, baseRev, db1, id, db2, db3, db4, root, st, db5, rfl, hup, rfl, hspine, -, hroot,
    hch, hre, rfl⟩ := insertWithBase_ok h
  have hlink := link_newRootRow env db1 schema src (env.baseIDOf link.base src) now
  have hrow : db5.root schema.table _ = some _ :=
    (root_of_roots (reactivateBaseIfArchived_touches hre).roots ..).trans <|
      (root_of_roots (roots_of_spine (spine_writeChildren hch)) ..).trans
        (root_insertRoot hroot)
  refine ⟨⟨schema.table, .inserted, _, _⟩, getLast?_concat,
    ⟨rfl, rfl, fun _ => rfl, root, {}, _, rfl, fun k hk => ?_,
      keys_nodup_writeChildren hkeys hch⟩, _, hrow, ⟨rfl, rfl⟩, rfl, rfl, fun link' hlink' => ?_⟩
  · rw [AssocMap.keys_append, mem_append, keys_writeFields] at hk
    rcases hk with hk | hk
    · exact .inl hk
    · cases hpk : schema.sharedPK with
      | true => simp [hpk] at hk
      | false => exact .inr (.inr ⟨rfl, rfl, by simpa [hpk, hs, eq_comm] using hk⟩)
  · rw [hs] at hlink'
    refine ⟨hlink.symm, fun _ => ?_⟩
    rw [hlink]
    obtain ⟨hrev, hlt⟩ := upsertSharedBase_clock hup
    have hrest : Revises (env.baseIDOf link.base src) 0 db1 db5 := by
      obtain ⟨rows, -, rfl⟩ := insertRoot_ok hroot
      exact (((Revises.of_spine hspine).trans (.setRoots ..)).trans
        (.of_spine (spine_writeChildren hch))).trans
          (revises_of_touches hs (reactivateBaseIfArchived_touches hre))
    exact ⟨hlt, hrev.le.trans (hrest.readBaseRevision (by omega))⟩

theorem updateAggregate_commits (hs : schema.sharedBase = none)
    (h : updateAggregate env db schema src now = .ok db') :
    ∃ ev, Commits schema .update src now db db' ev := by
  simp only [updateAggregate, bind_ok, pure_ok, Prod.exists] at h
  obtain ⟨db1, hroot, db2, root, hch, rfl⟩ := h
  obtain ⟨r, hr, rfl⟩ := updateRoot_ok hroot
  obtain ⟨hid, hrev, hborn, hroots, -⟩ := outboxMetaFor_spec (Prod.eta
    (outboxMetaFor env db2 schema src src.id)).symm
  have hrow : db2.root schema.table src.id = some (written (updatedRootRow schema src now) r) := by
    rw [root_of_roots (roots_of_spine (spine_writeChildren hch)), root_writeRoot, hr]
    rfl
  refine ⟨⟨schema.table, .updated, src.id, _⟩, getLast?_concat, ⟨rfl, hid, nofun, root, {}, _,
    rfl, fun k hk => .inl (by simpa using hk), keys_nodup_writeChildren hkeys hch⟩, _,
    (root_of_roots hroots ..).trans hrow, ⟨r, hr, rfl, rfl, rfl, rfl, nofun⟩, ?_, ?_,
    fun link hlink => ?_⟩
  · exact hrev.trans (by rw [readRevisionCreatedAt, hrow])
  · exact hborn.trans (by rw [readRevisionCreatedAt, hrow])
  · rw [hs] at hlink
    cases hlink

theorem updateWithBase_commits (hs : schema.sharedBase = some link)
    (hof : ofRow env db ⟨schema, .update, src, now⟩ = true)
    (h : updateWithBase env db schema link src now = .ok db') :
    ∃ ev, Commits schema .update src now db db' ev := by
  obtain ⟨baseID, r, db1, root, baseRev, db2, st, db3, rfl, hr, hch, hup, hre, rfl⟩ :=
    updateWithBase_ok h
  have hlink : r.link schema = env.baseIDOf link.base src := by
    simpa [ofRow, hr, hs] using hof
  have hrow : db3.root schema.table src.id = some (written (updatedRootRow schema src now) r) := by
    rw [root_of_roots (reactivateBaseIfArchived_touches hre).roots,
      root_of_roots (upsertSharedBase_ok hup).1,
      root_of_roots (roots_of_spine (spine_writeChildren hch)),
      root_writeRoot, hr]
    rfl
  refine ⟨⟨schema.table, .updated, src.id, _⟩, getLast?_concat, ⟨rfl, rfl, by simp, root, {},
    _, rfl, fun k hk => .inl (by simpa using hk), keys_nodup_writeChildren hkeys hch⟩, _, hrow,
    ⟨r, hr, rfl, rfl, rfl, rfl, by simp⟩, ?_, ?_, fun link' hlink' => ?_⟩
  · simp [buildWritePayload, readRevisionCreatedAt, hrow]
  · simp [buildWritePayload, readRevisionCreatedAt, hrow]
  · rw [hs] at hlink'
    have hlink' : (written (updatedRootRow schema src now) r).link schema =
        env.baseIDOf link.base src := (link_congr rfl rfl schema).trans hlink
    rw [hlink']
    refine ⟨rfl, fun hpos => ?_⟩
    have hpos : 0 < db.readBaseRevision (env.baseIDOf link.base src) := hpos.resolve_left (by simp)
    have hbefore : Revises (env.baseIDOf link.base src) 0 db db1 :=
      (Revises.setRoots (env.baseIDOf link.base src) db schema.table _).trans
        (.of_spine (spine_writeChildren hch))
    have hle := hbefore.readBaseRevision hpos
    have hlt := ((upsertSharedBase_revises hup).1 rfl).readBaseRevision (by omega)
    have hafter := (revises_of_touches hs (reactivateBaseIfArchived_touches hre)).readBaseRevision
      (by omega)
    have hrev := (upsertSharedBase_ok hup).2.2.1
    constructor
    · simp only [buildWritePayload]
      omega
    · exact hrev.ge.trans hafter

variable {verb : RoleVerb}

theorem archiveWrite_told (archive : Bool)
    (hverb : verb = if archive then .archive else .unarchive)
    (h : archiveWrite env db schema src archive now = .ok db') :
    ∃ ev, db'.outbox.getLast? = some ev ∧ Told schema verb src now ev := by
  obtain ⟨archivedCol, _, _, _, _, _, ids, _, hcol, -, -, -, -, -, hids, rfl⟩ := archiveWrite_ok h
  have hevent : archiveEvent archive = verb.eventType := by
    cases archive <;> simp [hverb, archiveEvent, RoleVerb.eventType]
  refine ⟨_, getLast?_concat, hevent, (outboxMetaFor_spec hids).1, ?_, src.root, _, _,
    by rw [← hevent]; rfl, fun k hk => ?_, hkeys⟩
  · rintro rfl
    cases archive <;> cases hverb
  · rcases mem_keys_set.1 hk with hk | rfl
    · exact .inl (by simpa using hk)
    · exact .inr (.inl hcol)

theorem archiveWrite_commits (archive : Bool)
    (hverb : verb = if archive then .archive else .unarchive)
    (hof : ofRow env db ⟨schema, verb, src, now⟩ = true)
    (hnk : ∀ link ∈ schema.sharedBase, (sharedBaseValues link.base src).2 ≠ "")
    (h : archiveWrite env db schema src archive now = .ok db') :
    ∃ ev, Commits schema verb src now db db' ev := by
  obtain ⟨ev, hout, htold⟩ := archiveWrite_told hkeys archive hverb h
  obtain ⟨_, _, db1, r, st, db2, ids, db3, -, -, -, hspine, hr, hconv, hids, rfl⟩ :=
    archiveWrite_ok h
  cases getLast?_concat.symm.trans hout
  obtain ⟨-, hrev, hborn, hroots, hbase⟩ := outboxMetaFor_spec hids
  have hrow : db2.root schema.table src.id =
      some (written (archivedRootRow schema src archive now) r) := by
    rw [root_of_roots (convergeBase_touches hconv).roots, root_writeRoot,
      root_of_roots (roots_of_spine hspine), hr]
    rfl
  have hlinked : ∀ link, schema.sharedBase = some link →
      (written (archivedRootRow schema src archive now) r).link schema =
        env.baseIDOf link.base src := by
    intro link hs
    have hlink : r.link schema = env.baseIDOf link.base src := by
      subst hverb
      cases archive <;> simpa [ofRow, hr, hs] using hof
    exact (link_congr rfl rfl schema).trans hlink
  refine ⟨_, hout, htold, _, (root_of_roots hroots ..).trans hrow, ?_, ?_, ?_, fun link hs => ?_⟩
  · subst hverb
    cases archive
    · exact ⟨r, hr, rfl, rfl, rfl, rfl, fun _ => rfl⟩
    · exact ⟨r, hr, rfl, rfl, rfl, rfl, by simp⟩
  · exact hrev.trans (by rw [readRevisionCreatedAt, hrow])
  · exact hborn.trans (by rw [readRevisionCreatedAt, hrow])
  · obtain ⟨hid, hclock⟩ := hbase link hs (hnk link hs)
    rw [hlinked link hs]
    refine ⟨hid, fun hpos => ?_⟩
    have hpos : 0 < db.readBaseRevision (env.baseIDOf link.base src) := by
      refine hpos.resolve_left ?_
      rintro rfl
      cases archive <;> cases hverb
    have hbefore : Revises (env.baseIDOf link.base src) 0 db db2 :=
      ((Revises.of_spine hspine).trans (.setRoots ..)).trans
        (revises_of_touches hs (convergeBase_touches hconv))
    have hle := hbefore.readBaseRevision hpos
    have hlt := (fillBaseMeta_revises hs (hnk link hs) hids).2.readBaseRevision (by omega)
    constructor
    · simp only [buildWritePayload]
      omega
    · exact hclock.le

omit hkeys

/-- **Every committed write of an aggregate** tells one event and moves its row and the clock of its
identity. -/
theorem commits_of_commit (hadm : Admits env schema id s verb src now)
    (h : commit env s.db ⟨schema, verb, src, now⟩ = .ok db') :
    ∃ ev, Commits schema verb src now s.db db' ev := by
  obtain ⟨hkeys, hadm⟩ := hadm
  cases verb with
  | insert =>
    simp only [commit, insertWrite] at h
    split at h
    · exact insertAggregate_commits hkeys ‹_› h
    · exact insertWithBase_commits hkeys ‹_› h
  | update =>
    simp only [commit, updateWrite] at h
    split at h
    · exact updateAggregate_commits hkeys ‹_› h
    · exact updateWithBase_commits hkeys ‹_› hadm.2.2.1 h
  | archive | unarchive => exact archiveWrite_commits hkeys _ rfl hadm.2.2.1 hadm.2.2.2 h
  | delete vetoed => exact hadm.elim

/-! ### The invariant of a history -/

/-- A step: a committed write of the aggregate, or other transactions. -/
inductive HistoryMove (env : Env) (schema : SchemaDecl) (id : String) (s : HistoryState) :
    HistoryAction α → HistoryState → Prop
  | write {verb : RoleVerb} {src : Entity α} {now : Instant} {db' : Database} {ev : OutboxRow}
      (hadm : Admits env schema id s verb src now) (hid : ev.aggregateID = id)
      (h : Commits schema verb src now s.db db' ev) :
      HistoryMove env schema id s (.write verb src now) { db := db', events := s.events ++ [ev] }
  | other {db' : Database} (h : LeavesAlone schema id s.db db') :
      HistoryMove env schema id s (.other db') { s with db := db' }

theorem historyMove_of_step {s' : HistoryState}
    (h : (historyMachine env schema id).step s a = some s') : HistoryMove env schema id s a s' := by
  cases a with
  | write verb src now =>
    simp only [historyMachine] at h
    split_ifs at h with hadm
    split at h
    · cases h
    · rename_i db' hcommit
      obtain ⟨ev, hev⟩ := commits_of_commit hadm hcommit
      rw [hev.outbox, Option.bind_some] at h
      split_ifs at h with hid
      cases h
      exact .write hadm hid hev
  | other db' =>
    obtain ⟨hleaves, rfl⟩ := Option.ite_some_none_eq_some.1 h
    exact .other hleaves

/-- The events of a history: built by the engine, with growing revisions, all of one birth and one
identity, and none ahead of the row or of the clock of the identity. -/
structure HistorySound (α : Type) [PersistentItem α] (schema : SchemaDecl) (id : String)
    (s : HistoryState) : Prop where
  told : ∀ ev ∈ s.events, ev.aggregateID = id ∧
    ∃ verb, ∃ (src : Entity α) (now : Instant), Told schema verb src now ev
  revisions : s.events.Pairwise fun e f => e.payload.ids.revision < f.payload.ids.revision
  baseRevisions : schema.sharedBase.isSome →
    s.events.Pairwise fun e f => e.payload.ids.baseRevision < f.payload.ids.baseRevision
  row : s.events ≠ [] → ∃ r, s.db.root schema.table id = some r ∧ ∀ ev ∈ s.events,
    ev.payload.ids.revision ≤ r.revision ∧ ev.payload.ids.createdAt = r.createdAt ∧
    (schema.sharedBase.isSome → ev.payload.ids.baseID = r.link schema ∧
      0 < ev.payload.ids.baseRevision ∧
      ev.payload.ids.baseRevision ≤ s.db.readBaseRevision (r.link schema))

theorem HistorySound.step {s' : HistoryState} (hs : HistorySound α schema id s)
    (h : (historyMachine env schema id).step s a = some s') : HistorySound α schema id s' := by
  cases historyMove_of_step h with
  | other hleaves =>
    refine ⟨hs.told, hs.revisions, hs.baseRevisions, fun hne => ?_⟩
    obtain ⟨r, hr, hall⟩ := hs.row hne
    refine ⟨r, hleaves.1.trans hr, fun ev hev => ?_⟩
    obtain ⟨hrev, hborn, hbase⟩ := hall ev hev
    refine ⟨hrev, hborn, fun hrole => ?_⟩
    obtain ⟨hid, hpos, hle⟩ := hbase hrole
    exact ⟨hid, hpos, hle.trans (hleaves.2 r hr)⟩
  | @write verb src now db' ev hadm hid hcom =>
    subst hid
    obtain ⟨r, hr, hafter, hrev, hborn, hbase⟩ := hcom.row
    have htold : ∀ e ∈ s.events ++ [ev], e.aggregateID = ev.aggregateID ∧
        ∃ verb, ∃ (src : Entity α) (now : Instant), Told schema verb src now e := by
      intro e he
      rcases mem_concat.1 he with he | rfl
      · exact hs.told e he
      · exact ⟨rfl, verb, src, now, hcom.told⟩
    -- the event is the first one, or follows all those before
    have hnew : ∀ e ∈ s.events, e.payload.ids.revision < ev.payload.ids.revision ∧
        e.payload.ids.createdAt = r.createdAt ∧
        (schema.sharedBase.isSome → e.payload.ids.baseID = r.link schema ∧
          0 < e.payload.ids.baseRevision ∧
          e.payload.ids.baseRevision ≤ s.db.readBaseRevision (r.link schema)) := by
      intro e he
      have hne : s.events ≠ [] := ne_nil_of_mem he
      obtain ⟨r0, hr0, hall⟩ := hs.row hne
      obtain ⟨hrev0, hborn0, hbase0⟩ := hall e he
      have hrow : ∃ r0 ∈ s.db.root schema.table ev.aggregateID, r.id = r0.id ∧
          r.parentID = r0.parentID ∧ r.createdAt = r0.createdAt ∧
          r.revision = r0.revision + 1 := by
        cases verb with
        | insert => exact absurd hadm.2 hne
        | delete vetoed => exact hadm.2.elim
        | _ =>
          obtain ⟨r0, hr0, hid, hp, hc, hv, -⟩ := hafter
          exact ⟨r0, hr0, hid, hp, hc, hv⟩
      obtain ⟨r1, hr1, hid, hp, hc, hv⟩ := hrow
      obtain rfl := Option.mem_unique hr0 hr1
      rw [link_congr hid hp schema]
      exact ⟨by omega, hborn0.trans hc.symm, hbase0⟩
    have hclock : schema.sharedBase.isSome → ev.payload.ids.baseID = r.link schema ∧
        ClockAfter (r.link schema) s.db db' ev := by
      intro hrole
      obtain ⟨link, hlink⟩ := Option.isSome_iff_exists.1 hrole
      obtain ⟨hbid, hclock⟩ := hbase link hlink
      refine ⟨hbid, hclock ?_⟩
      rcases eq_nil_or_concat s.events with hnil | ⟨es, e, hes⟩
      · left
        cases verb with
        | insert => rfl
        | delete vetoed => exact hadm.2.elim
        | _ => exact absurd hnil hadm.2.1
      · obtain ⟨-, -, hb⟩ := hnew e (by simp [hes])
        obtain ⟨-, hpos, hle⟩ := hb hrole
        exact .inr (by omega)
    refine ⟨htold, ?_, fun hrole => ?_, fun _ => ⟨r, hr, fun e he => ?_⟩⟩
    · refine pairwise_append.2 ⟨hs.revisions, pairwise_singleton .., fun e he => ?_⟩
      exact forall_mem_singleton.2 (hnew e he).1
    · refine pairwise_append.2 ⟨hs.baseRevisions hrole, pairwise_singleton .., fun e he => ?_⟩
      refine forall_mem_singleton.2 ?_
      obtain ⟨-, -, hle⟩ := (hnew e he).2.2 hrole
      exact hle.trans_lt (hclock hrole).2.1
    · rcases mem_concat.1 he with he | rfl
      · obtain ⟨hlt, hc, hb⟩ := hnew e he
        refine ⟨by omega, hc, fun hrole => ?_⟩
        obtain ⟨hbid, hpos, hle⟩ := hb hrole
        obtain ⟨hl, hl'⟩ := (hclock hrole).2
        exact ⟨hbid, hpos, hle.trans (hl.le.trans hl')⟩
      · refine ⟨hrev.le, hborn, fun hrole => ?_⟩
        obtain ⟨hbid, hl, hl'⟩ := hclock hrole
        exact ⟨hbid, by omega, hl'⟩

/-- **The events of every history** are sound. -/
theorem historySound_of_run {db : Database} {as : List (HistoryAction α)}
    (h : (historyMachine env schema id).run { db } as = some s) : HistorySound α schema id s :=
  Machine.Reachable.invariant (M := historyMachine env schema id)
    (fun _ _ _ hs hstep => hs.step hstep)
    ⟨fun _ he => absurd he not_mem_nil, .nil, fun _ => .nil, fun h => absurd rfl h⟩ ⟨as, h⟩

/-- **Along every history** the events stay sound, whatever the rows at first. -/
theorem history_sound_throughout (db : Database) (as : List (HistoryAction α)) :
    (historyMachine env schema id).Always (HistorySound α schema id) { db } as :=
  Machine.always_of_invariant (fun _ _ _ _ hs => hs.step) ⟨nofun, .nil, fun _ => .nil, nofun⟩

end

/-! ### Customers -/

/-- Customers with their addresses. -/
def customers : TableSchema where
  table := "customer"
  idColumn := "id"
  fields := [{ column := "name" }]
  revisionColumn := "revision"
  archivedAt := some "archived_at"
  createdAt := some "created_at"
  children := [{
    typeName := "Address", table := "customer_address", segment := "addresses", idColumn := "id"
    parentIDColumn := "customer_id", fields := [{ column := "street" }]
    archivedAt := some "archived_at" }]

def customerEnv : Env where
  newWriteID n := if n = 0 then "c" else "a"
  deterministicBaseID nk := nk
  referencingRoles := []

/-- A customer with some tracked addresses. -/
def customer (id : String) (revision : ℕ) (addresses : List (AggregateItemEntry Address)) :
    Entity Address where
  id
  values _ := .str "Ann"
  revision
  root := some { aggregateChildren := ["Address"], aggregates := [("Address", addresses)] }

end Omnicore.Write
