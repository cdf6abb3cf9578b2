import Omnicore.Lib.Register
import Omnicore.Write.BaseLifecycle

/-!
# The identity clock

The revision of a shared base orders the events of all its roles: a reader keeps the base columns
of the event with the highest base revision.  An insert or an update publishes the columns it
writes.  An archive or an unarchive advances the clock without writing any column, and publishes
those its entity was loaded with.

## Main results

* `carriesTrueState_iff_publishesRow` : the events of a run carry the content of the base row at
  their revision exactly if every write publishes what it leaves in the row.
* `namesRevision_iff` : the base revision of an event is the committed one exactly if nothing
  advances the clock after the event has taken it.
* `stale_archive_publishes_old_name` : an archive of an entity loaded before another role's write
  does not.
-/

namespace Omnicore.Write

open Omnicore.Core Domain Option Database Register Except

variable {α : Type}

open RoleWrite

/-- Transactions that commit one after the other, each on an entity loaded at any earlier time. -/
def roleMachine [PersistentItem α] (env : Env) : Machine Database (RoleWrite α) where
  step db w := if w.ofRow env db then (w.commit env db).toOption else none

/-- The write is one of an identity and keeps its row; documents of its role hold each column
once. -/
structure RoleWrite.KeepsIdentity (env : Env) (base : BaseSchema) (baseID : String)
    (w : RoleWrite α) : Prop extends w.OnIdentity env base baseID where
  keeps : ∀ vetoed, w.verb ≠ .delete vetoed
  naturalKey : (sharedBaseValues base w.src).2 ≠ ""
  keys_nodup : w.schema.documentKeys.Nodup

/-- Nothing of an identity is in the store yet. -/
structure Unused (env : Env) (baseID : String) (db : Database) : Prop where
  base : db.base baseID = none
  roles : anyRoleRowReferences env db baseID = false
  versions : ∀ v ∈ db.baseVersions, v.id ≠ baseID
  events : ∀ ev ∈ db.outbox, ev.payload.ids.baseID ≠ baseID

/-- An event shows the business columns of the base as a row holds them. -/
def Shows (base : BaseSchema) (ev : OutboxRow) (row : BaseRow) : Prop :=
  ∀ c ∈ columns base.fields, ev.payload.scalars.get c = row.fields.get c

/-- Every event of the identity shows the version of the base row its base revision names, and the
event of the highest base revision shows the current row. -/
def CarriesTrueState (base : BaseSchema) (baseID : String) (db : Database) : Prop :=
  (∀ ev ∈ db.outbox, ev.payload.ids.baseID = baseID →
    (∃ v ∈ db.baseVersions, v.id = baseID ∧ v.revision = ev.payload.ids.baseRevision) ∧
    ∀ v ∈ db.baseVersions, v.id = baseID → v.revision = ev.payload.ids.baseRevision →
      Shows base ev v) ∧
  ∀ ev ∈ db.outbox, ev.payload.ids.baseID = baseID →
    (∀ ev' ∈ db.outbox, ev'.payload.ids.baseID = baseID →
      ev'.payload.ids.baseRevision ≤ ev.payload.ids.baseRevision) →
    ∀ b ∈ db.base baseID, Shows base ev b

instance (base : BaseSchema) (ev : OutboxRow) : DecidablePred (Shows base ev) := fun _ =>
  inferInstanceAs (Decidable (∀ c ∈ columns base.fields, _))

instance (base : BaseSchema) (baseID : String) : DecidablePred (CarriesTrueState base baseID) :=
  fun _ => inferInstanceAs (Decidable (_ ∧ _))

/-- The redacted base columns of the entity are what the transaction leaves in the base row: the
entity's own for an insert or an update, those of the row for an archive or an unarchive. -/
def RoleWrite.PublishesRow (env : Env) (base : BaseSchema) (db : Database) (w : RoleWrite α) :
    Prop :=
  ∀ c ∈ columns base.fields, some (redactValue base.fields c (w.src.values c)) =
    match w.verb with
    | .archive | .unarchive => (db.base (env.baseIDOf base w.src)).bind (·.fields.get c)
    | _ => some (w.src.values c)

instance (env : Env) (base : BaseSchema) (db : Database) (w : RoleWrite α) :
    Decidable (w.PublishesRow env base db) :=
  inferInstanceAs (Decidable (∀ c ∈ columns base.fields, _))

/-! ### The register of an identity -/

/-- The business columns of the base in a set of fields. -/
def baseContent (base : BaseSchema) (fields : Fields) : List (Option Value) :=
  (columns base.fields).map fields.get

theorem baseContent_eq_iff {base : BaseSchema} {m m' : Fields} :
    baseContent base m = baseContent base m' ↔ ∀ c ∈ columns base.fields, m.get c = m'.get c := by
  simp [baseContent]

/-- The base row of an identity as a register: its versions, and the events about it. -/
def Database.register (db : Database) (base : BaseSchema) (baseID : String) :
    Register (List (Option Value)) where
  current := (db.base baseID).map fun b => (b.revision, baseContent base b.fields)
  history := (db.baseVersions.filter (·.id = baseID)).map fun v =>
    (v.revision, baseContent base v.fields)
  published := (db.outbox.filter (·.payload.ids.baseID = baseID)).map fun ev =>
    (ev.payload.ids.baseRevision, baseContent base ev.payload.scalars)

variable {env : Env} {base : BaseSchema} {baseID : String} {db db' : Database}

variable {p : ℕ × List (Option Value)}

theorem mem_register_history :
    p ∈ (db.register base baseID).history ↔ ∃ v ∈ db.baseVersions, v.id = baseID ∧
      (v.revision, baseContent base v.fields) = p := by
  simp [register, and_assoc]

theorem mem_register_published :
    p ∈ (db.register base baseID).published ↔ ∃ ev ∈ db.outbox, ev.payload.ids.baseID = baseID ∧
      (ev.payload.ids.baseRevision, baseContent base ev.payload.scalars) = p := by
  simp [register, and_assoc]

theorem carriesTrueState_iff_faithful (h : (db.register base baseID).Coherent) :
    CarriesTrueState base baseID db ↔ (db.register base baseID).Faithful := by
  constructor
  · rintro ⟨htrue, -⟩ p hp
    obtain ⟨ev, hev, hid, rfl⟩ := mem_register_published.1 hp
    obtain ⟨⟨v, hv, hvid, hrev⟩, hall⟩ := htrue ev hev hid
    refine mem_register_history.2 ⟨v, hv, hvid, ?_⟩
    rw [hrev, baseContent_eq_iff.2 (hall v hv hvid hrev)]
  · intro hf
    refine ⟨fun ev hev hid => ?_, fun ev hev hid hlast b hb => ?_⟩
    · have hp := hf _ (mem_register_published.2 ⟨ev, hev, hid, rfl⟩)
      obtain ⟨v, hv, hvid, he⟩ := mem_register_history.1 hp
      rw [Prod.mk.injEq] at he
      refine ⟨⟨v, hv, hvid, he.1⟩, fun w hw hwid hrev => ?_⟩
      have := h.functional _ hp _ (mem_register_history.2 ⟨w, hw, hwid, rfl⟩) hrev.symm
      exact baseContent_eq_iff.1 (Prod.ext_iff.1 this).2
    · obtain ⟨n, hn⟩ := hf.last h (mem_register_published.2 ⟨ev, hev, hid, rfl⟩) (fun q hq => by
        obtain ⟨ev', hev', hid', rfl⟩ := mem_register_published.1 hq
        exact hlast ev' hev' hid')
      rw [mem_def] at hb
      simp only [register, hb, map_some, some.injEq, Prod.mk.injEq] at hn
      exact baseContent_eq_iff.1 hn.2.symm

/-! ### What the statements do to it -/

theorem register_of_spine (h : db'.spine = db.spine) :
    db'.register base baseID = db.register base baseID := by
  simp only [Database.spine, Prod.mk.injEq] at h
  obtain ⟨-, h2, h3, h4⟩ := h
  simp only [Database.register, Database.base, h2, h3, h4]

theorem register_setRoots (table : String) (rows : Table RootRow) :
    (db.setRoots table rows).register base baseID = db.register base baseID := rfl

theorem register_updateBase {b : BaseRow} (hb : db.base baseID = some b) (p : BaseRow → Bool)
    (f : BaseRow → BaseRow) : (db.updateBase baseID p f).register base baseID =
      if p b then (db.register base baseID).write (baseContent base (f b).fields)
      else db.register base baseID := by
  have hid : b.id = baseID := (Table.find_eq_some_iff.1 hb).2
  have hbase := base_updateBase db baseID p f
  rw [hb, map_some] at hbase
  have hversions : (db.updateBase baseID p f).baseVersions =
      db.baseVersions ++ if p b then [BaseRow.written f b] else [] := by
    rw [updateBase, hb, Option.filter]
    split_ifs <;> rfl
  unfold register
  rw [hbase, hversions]
  split_ifs
  · simp [write, revision, hb, updateBase, BaseRow.written, hid]
  · simp [hb, updateBase]

theorem register_insertBase {table : String} {row : BaseRow} (hid : row.id = baseID)
    (hrev : row.revision = 1) (h : db.insertBase table row = .ok db') :
    db'.register base baseID = (db.register base baseID).write (baseContent base row.fields) := by
  obtain ⟨rows, hrows, rfl⟩ := Database.insertBase_ok h
  obtain ⟨hnone, -⟩ := Table.insert_eq_some hrows
  have hfind := Table.find_insert hrows baseID
  rw [if_pos (show Keyed.key row = baseID from hid)] at hfind
  rw [show Keyed.key row = baseID from hid] at hnone
  simp [Database.register, Database.base, hfind, hnone, write, revision, hid, hrev]

variable {v : List (Option Value)}

theorem base_of_register_current {n : ℕ} (h : (db.register base baseID).current = some (n, v)) :
    ∃ b, db.base baseID = some b ∧ b.revision = n ∧ baseContent base b.fields = v := by
  simp only [register, map_eq_some_iff, Prod.mk.injEq] at h
  exact h

theorem readBaseRevision_eq_revision :
    db.readBaseRevision baseID = (db.register base baseID).revision := by
  simp only [readBaseRevision, revision, register]
  cases db.base baseID <;> rfl

variable {schema : SchemaDecl} {col : String} {src : Entity α} {now : Instant}

theorem register_of_touches {n : ℕ} (hs : schema.sharedBase = some ⟨base, col⟩)
    (hcur : (db.register base (env.baseIDOf base src)).current = some (n, v))
    (h : TouchesBase (env.sharedBaseID schema src) db db') :
    ∃ again : Bool, db'.register base (env.baseIDOf base src) =
      if again then (db.register base (env.baseIDOf base src)).write v
      else db.register base (env.baseIDOf base src) := by
  rw [sharedBaseID_eq hs] at h
  rcases h with h | ⟨p, f, h, hf⟩
  · exact ⟨false, register_of_spine h⟩
  · obtain ⟨b, hb, -, rfl⟩ := base_of_register_current hcur
    exact ⟨p b, by rw [register_of_spine h, register_updateBase hb, hf]⟩

/-- The base columns of an entity. -/
def entityContent (base : BaseSchema) (src : Entity α) : List (Option Value) :=
  (columns base.fields).map fun c => some (src.values c)

/-- The base columns an entity publishes. -/
def publishedContent (base : BaseSchema) (src : Entity α) : List (Option Value) :=
  (columns base.fields).map fun c => some (redactValue base.fields c (src.values c))

/-- An upsert writes the columns of the entity and answers the revision of the write. -/
theorem register_upsertSharedBase {rev : ℕ} (hcols : (columns base.fields).Nodup)
    {baseExists : Bool} (hex : baseExists = (db.base baseID).isSome)
    (h : upsertSharedBase db base baseID (sharedBaseValues base src).1 baseExists now =
      .ok (rev, db')) :
    db'.register base baseID = (db.register base baseID).write (entityContent base src) ∧
      rev = (db'.register base baseID).revision := by
  have hwrite : baseContent base (writeFields base.fields src.values) = entityContent base src :=
    List.map_congr_left fun c hc => by rw [get_writeFields, if_pos hc]
  refine ⟨?_, (upsertSharedBase_ok h).2.2.1.symm.trans readBaseRevision_eq_revision⟩
  cases baseExists with
  | true =>
    obtain ⟨b, hb⟩ := isSome_iff_exists.1 hex.symm
    obtain ⟨rfl, rfl⟩ := h
    rw [register_updateBase hb, if_pos rfl]
    congr 1
    refine (baseContent_eq_iff.2 fun c hc => ?_).trans hwrite
    rw [sharedBaseValues, AssocMap.get_setAll _ (by simpa using hcols), get_writeFields, if_pos hc]
    rfl
  | false =>
    simp only [upsertSharedBase, Bool.false_eq_true, if_false, bind_ok, pure_ok] at h
    obtain ⟨db1, h1, h⟩ := h
    cases h
    have hreg : db'.register base baseID =
        (db.register base baseID).write (baseContent base (sharedBaseValues base src).1) :=
      register_insertBase rfl rfl h1
    exact hreg.trans (by rw [← hwrite]; rfl)

/-! ### The verbs as transactions of the register -/

theorem RoleWrite.references_of_ofRow {w : RoleWrite α} (hw : w.OnIdentity env base baseID)
    (hrow : w.ofRow env db = true) (hv : w.verb ≠ .insert) (r : RootRow)
    (hr : db.root w.schema.table w.src.id = some r) :
    anyRoleRowReferences env db baseID = true := by
  obtain ⟨hreg, ⟨col, hs⟩, rfl⟩ := hw
  refine anyRoleRowReferences_eq_true.2 ⟨w.schema, hreg, r, (Table.find_eq_some_iff.1 hr).1, ?_⟩
  cases hverb : w.verb <;>
    simp_all [ofRow]

section

variable [PersistentItem α]

variable (hs : schema.sharedBase = some ⟨base, col⟩) (hkeys : schema.documentKeys.Nodup)
include hs hkeys

theorem register_publish {root : Option (AggregateRoot α)} {ev : EventType} {table id : String}
    {stamps : CascadeStamps} {rootFields : Fields} {ids : OutboxMeta} (hid : baseID ≠ "")
    (hids : ids.baseID = baseID) :
    (db.writeOutbox table ev id
        (buildWritePayload schema src root ev now stamps rootFields ids)).register base baseID =
      (db.register base baseID).publish ids.baseRevision (publishedContent base src) := by
  have hpublished : publishedContent base src = baseContent base (buildWritePayload schema src root
      ev now stamps rootFields ids).scalars := by
    refine List.map_congr_left fun c hc => ?_
    exact (get_buildWritePayload_base hs hkeys (hids.symm ▸ hid) hc).symm
  rw [hpublished]
  simp [Database.register, Database.writeOutbox, publish, Database.base, buildWritePayload, hids]

theorem columns_nodup_of_documentKeys : (columns base.fields).Nodup := by
  simp only [SchemaDecl.documentKeys, SchemaDecl.sharedBaseBusinessColumns, hs] at hkeys
  exact hkeys.of_append_left.of_append_right

theorem insertWithBase_transact (hid : env.baseIDOf base src ≠ "")
    (h : insertWithBase env db schema ⟨base, col⟩ src now = .ok db') :
    ∃ again, db'.register base (env.baseIDOf base src) =
      (db.register base (env.baseIDOf base src)).transact (entityContent base src) false again
        (publishedContent base src) := by
  obtain ⟨baseID, baseRev, db1, id, db2, db3, db4, root, st, db5, rfl, hup, rfl, hspine, -, hroot,
    hch, hre, rfl⟩ := insertWithBase_ok h
  obtain ⟨rows, -, rfl⟩ := insertRoot_ok hroot
  obtain ⟨hwrite, rfl⟩ := register_upsertSharedBase (columns_nodup_of_documentKeys hs hkeys) rfl hup
  have hreg : db4.register base (env.baseIDOf base src) =
      (db.register base (env.baseIDOf base src)).write (entityContent base src) := by
    rw [register_of_spine (spine_writeChildren hch), register_setRoots,
      register_of_spine hspine, hwrite]
  obtain ⟨again, hagain⟩ :=
    register_of_touches hs (by rw [hreg]; rfl) (reactivateBaseIfArchived_touches hre)
  refine ⟨again, ?_⟩
  rw [register_publish hs hkeys hid rfl, hagain, hreg, hwrite]
  rfl

theorem updateWithBase_transact (hid : env.baseIDOf base src ≠ "")
    (hbase : (db.base (env.baseIDOf base src)).isSome)
    (h : updateWithBase env db schema ⟨base, col⟩ src now = .ok db') :
    ∃ again, db'.register base (env.baseIDOf base src) =
      (db.register base (env.baseIDOf base src)).transact (entityContent base src) false again
        (publishedContent base src) := by
  obtain ⟨baseID, _, db1, root, baseRev, db2, st, db3, rfl, -, hch, hup, hre, rfl⟩ :=
    updateWithBase_ok h
  have hspine := spine_writeChildren hch
  have hreg : db1.register base (env.baseIDOf base src) =
      db.register base (env.baseIDOf base src) := by
    rw [register_of_spine hspine, writeRoot, register_setRoots]
  have hex : true = (db1.base (env.baseIDOf base src)).isSome := by
    rw [base_of_spine hspine]
    exact hbase.symm
  obtain ⟨hwrite, rfl⟩ := register_upsertSharedBase (columns_nodup_of_documentKeys hs hkeys) hex hup
  obtain ⟨again, hagain⟩ :=
    register_of_touches hs (by rw [hwrite]; rfl) (reactivateBaseIfArchived_touches hre)
  refine ⟨again, ?_⟩
  rw [register_publish hs hkeys hid rfl, hagain, hwrite, hreg]
  rfl

theorem archiveWrite_transact {archive : Bool} {n : ℕ} {v : List (Option Value)}
    (hid : env.baseIDOf base src ≠ "") (hnk : (sharedBaseValues base src).2 ≠ "")
    (hcur : (db.register base (env.baseIDOf base src)).current = some (n, v))
    (h : archiveWrite env db schema src archive now = .ok db') :
    ∃ again, db'.register base (env.baseIDOf base src) =
      (db.register base (env.baseIDOf base src)).transact v again false
        (publishedContent base src) := by
  obtain ⟨_, _, db1, _, st, db2, ids, db3, -, -, -, hspine, -, hconv, hids, rfl⟩ :=
    archiveWrite_ok h
  have hreg : (db1.writeRoot schema.table src.id (archivedRootRow schema src archive now)).register
      base (env.baseIDOf base src) = db.register base (env.baseIDOf base src) := by
    rw [writeRoot, register_setRoots, register_of_spine hspine]
  have hconv : ∃ again : Bool, db2.register base (env.baseIDOf base src) =
      if again then (db.register base (env.baseIDOf base src)).write v
      else db.register base (env.baseIDOf base src) := by
    rw [← hreg] at hcur ⊢
    exact register_of_touches hs hcur (convergeBase_touches hconv)
  obtain ⟨again, hagain⟩ := hconv
  have hcur2 : ∃ m, (db2.register base (env.baseIDOf base src)).current = some (m, v) := by
    rw [hagain]
    split_ifs
    · exact ⟨_, rfl⟩
    · exact ⟨n, hcur⟩
  obtain ⟨m, hcur2⟩ := hcur2
  obtain ⟨b, hb, -, hv⟩ := base_of_register_current hcur2
  -- the clock advances once more, on the content as it is
  have hbump : (bumpBaseRevision db2 (env.baseIDOf base src)).register base
      (env.baseIDOf base src) = (db2.register base (env.baseIDOf base src)).write v := by
    rw [bumpBaseRevision, register_updateBase hb, if_pos rfl, id, hv]
  simp only [outboxMetaFor, fillBaseMeta, hs, hnk, if_false, Prod.mk.injEq] at hids
  obtain ⟨rfl, rfl⟩ := hids
  refine ⟨again, ?_⟩
  rw [register_publish hs hkeys hid rfl, readBaseRevision_eq_revision, hbump, hagain]
  rfl

omit hs hkeys

/-- **Step.** A committed write is one transaction of the register; it publishes what it leaves in
the row exactly under `PublishesRow`. -/
theorem RoleWrite.commit_transact {w : RoleWrite α} (hw : w.KeepsIdentity env base baseID)
    (hid : baseID ≠ "")
    (hbase : anyRoleRowReferences env db baseID = true → (db.base baseID).isSome)
    (hrow : w.ofRow env db = true) (h : w.commit env db = .ok db') :
    ∃ v before after, db'.register base baseID =
        (db.register base baseID).transact v before after (publishedContent base w.src) ∧
      (publishedContent base w.src = v ↔ w.PublishesRow env base db) := by
  have href := w.references_of_ofRow hw.toOnIdentity hrow
  obtain ⟨⟨hreg, ⟨col, hs⟩, rfl⟩, hkeep, hnk, hkeys⟩ := hw
  obtain ⟨schema, verb, src, now⟩ := w
  simp only at hs hnk hkeys hkeep hbase hid href
  -- an archive verb, in either direction
  have harchive : ∀ archive, archiveWrite env db schema src archive now = .ok db' →
      verb ≠ .insert → ∃ b v before, db.base (env.baseIDOf base src) = some b ∧
        v = baseContent base b.fields ∧ db'.register base (env.baseIDOf base src) =
          (db.register base (env.baseIDOf base src)).transact v before false
            (publishedContent base src) := by
    intro archive h hverb
    obtain ⟨_, _, _, r, _, _, _, _, -, -, -, -, hr, -⟩ := archiveWrite_ok h
    obtain ⟨b, hb⟩ := isSome_iff_exists.1 (hbase (href hverb r hr))
    have hcur : (db.register base (env.baseIDOf base src)).current =
        some (b.revision, baseContent base b.fields) := by simp [register, hb]
    obtain ⟨again, hagain⟩ := archiveWrite_transact hs hkeys hid hnk hcur h
    exact ⟨b, _, again, hb, rfl, hagain⟩
  cases verb with
  | insert =>
    simp only [commit, insertWrite, hs] at h
    obtain ⟨again, hagain⟩ := insertWithBase_transact hs hkeys hid h
    exact ⟨_, _, _, hagain, by simp [publishedContent, entityContent, PublishesRow]⟩
  | update =>
    simp only [commit, updateWrite, hs] at h
    obtain ⟨_, r, _, _, _, _, _, _, -, hr, -⟩ := updateWithBase_ok h
    obtain ⟨again, hagain⟩ := updateWithBase_transact hs hkeys hid (hbase (href (by simp) r hr)) h
    exact ⟨_, _, _, hagain, by simp [publishedContent, entityContent, PublishesRow]⟩
  | archive | unarchive =>
    obtain ⟨b, v, before, hb, rfl, hreg⟩ := harchive _ h (by simp)
    exact ⟨_, _, _, hreg, by simp [publishedContent, baseContent, PublishesRow, hb]⟩
  | delete vetoed => exact absurd rfl (hkeep vetoed)

theorem Unused.coherent (h : Unused env baseID db) : (db.register base baseID).Coherent ∧
    (db.register base baseID).Faithful := by
  have hhist : ∀ p, p ∉ (db.register base baseID).history := by
    intro p hp
    obtain ⟨v, hv, hid, -⟩ := mem_register_history.1 hp
    exact h.versions v hv hid
  have hpub : ∀ p, p ∉ (db.register base baseID).published := by
    intro p hp
    obtain ⟨ev, hev, hid, -⟩ := mem_register_published.1 hp
    exact h.events ev hev hid
  exact ⟨⟨fun p hp => absurd hp (hhist p), fun p hp => absurd hp (hhist p),
    fun p hp => absurd hp (hpub p), fun p hp => absurd hp (hhist p)⟩,
    fun p hp => absurd hp (hpub p)⟩

/-- **The identity clock and its events.** In every run of committed writes of one identity, every
event carries the base row's content at its base revision, and the newest one its current content,
exactly if each write publishes what it leaves in the row. -/
theorem carriesTrueState_iff_publishesRow (env : Env) (base : BaseSchema) (baseID : String)
    (hid : baseID ≠ "") (db₀ : Database) (h₀ : Unused env baseID db₀) (ops : List (RoleWrite α))
    (hops : ∀ w ∈ ops, w.KeepsIdentity env base baseID)
    (hrun : ((roleMachine env).run db₀ ops).isSome) :
    (roleMachine env).Always (CarriesTrueState base baseID) db₀ ops ↔
      (roleMachine env).Along (fun db w => w.PublishesRow env base db) db₀ ops := by
  refine Machine.always_iff_along_of_run (K := fun db => (db.register base baseID).Coherent ∧
      (anyRoleRowReferences env db baseID = true → (db.base baseID).isSome))
    (fun w hw db db' hK hI h => ?_) ⟨h₀.coherent.1, fun h => ?_⟩ ?_ hrun
  · obtain ⟨hcoh, hbase⟩ := hK
    simp only [roleMachine] at h
    split_ifs at h with hrow
    have hcommit : w.commit env db = .ok db' := by
      cases hc : w.commit env db <;> simp_all [Except.toOption]
    obtain ⟨v, before, after, hreg, hiff⟩ := commit_transact (hops w hw) hid hbase hrow hcommit
    have hcoh' : (db'.register base baseID).Coherent := hreg ▸ hcoh.transact v before after _
    refine ⟨⟨hcoh', fun _ => ?_⟩, ?_⟩
    · obtain ⟨_, k, -, -, hcur, -⟩ :=
        transact_spec (db.register base baseID) v before after
          (publishedContent base w.src)
      obtain ⟨b, hb, -⟩ := base_of_register_current (hreg ▸ hcur)
      simp [hb]
    · rw [carriesTrueState_iff_faithful hcoh', hreg, faithful_transact_iff hcoh
        ((carriesTrueState_iff_faithful hcoh).1 hI), hiff]
  · exact absurd h (by simp [h₀.roles])
  · exact (carriesTrueState_iff_faithful h₀.coherent.1).2 h₀.coherent.2

end

/-! ### The base revision of an event -/

/-- The newest event names the revision the base row has. -/
def NamesRevision (baseID : String) (db : Database) : Prop :=
  ∃ ev ∈ db.outbox.getLast?, ev.payload.ids.baseRevision = db.readBaseRevision baseID

/-- Nothing advances the clock past the revision an event has taken: an insert or an update finds no
archived base to restore, and an archive or an unarchive has a natural key to find the base by. -/
def RoleWrite.TakesLast (env : Env) (base : BaseSchema) (db : Database) (w : RoleWrite α) : Prop :=
  match w.verb with
  | .insert | .update =>
    base.archivedAt.isSome → (db.baseArchivedAt (env.baseIDOf base w.src)).join = none
  | _ => (sharedBaseValues base w.src).2 = "" → db.readBaseRevision (env.baseIDOf base w.src) = 0

theorem readBaseRevision_of_bases (h : db'.bases = db.bases) :
    db'.readBaseRevision baseID = db.readBaseRevision baseID := by
  rw [readBaseRevision, base, h, readBaseRevision, base]

theorem namesRevision_writeOutbox {table id : String} {ev : EventType} {payload : Payload} :
    NamesRevision baseID (db.writeOutbox table ev id payload) ↔
      payload.ids.baseRevision = db.readBaseRevision baseID := by
  simp [NamesRevision, writeOutbox, readBaseRevision, base]

theorem readBaseRevision_reactivate {st : Option Instant}
    (hs : schema.sharedBase = some ⟨base, col⟩)
    (h : reactivateBaseIfArchived env db schema src = .ok (st, db')) :
    db.readBaseRevision (env.baseIDOf base src) = db'.readBaseRevision (env.baseIDOf base src) ↔
      (base.archivedAt.isSome → (db.baseArchivedAt (env.baseIDOf base src)).join = none) := by
  have h : convergeBaseAfterArchiveWrite env db schema src false 1 = .ok (st, db') := h
  obtain ⟨hst, ⟨rfl, rfl⟩ | ⟨link, stamp, hlink, rfl, -, rfl⟩⟩ := convergeBase_cases h
  all_goals
    simp only [baseStamp, hs, any_some, sharedBaseID_eq hs, Bool.false_eq_true, if_false,
      ← join_baseArchivedAt] at hst
  · refine ⟨fun _ hb => ?_, fun _ => rfl⟩
    rw [if_pos hb] at hst
    exact hst.symm
  · split_ifs at hst with hb
    obtain ⟨b, hbase, harch⟩ := bind_eq_some_iff.1 ((join_baseArchivedAt ..).symm.trans hst.symm)
    rw [cond_false, readBaseRevision_of_bases (bases_of_spine (spine_unarchiveBaseCascade ..)),
      sharedBaseID_eq hs]
    simp [readBaseRevision, base_updateBase, hbase, harch, BaseRow.written, hb, ← hst]

/-- **The base revision of an event** is the committed one exactly if nothing advances the clock
after the event has taken it. -/
theorem namesRevision_iff [PersistentItem α] {w : RoleWrite α}
    (hs : w.schema.sharedBase = some ⟨base, col⟩) (hverb : ∀ vetoed, w.verb ≠ .delete vetoed)
    (h : w.commit env db = .ok db') :
    NamesRevision (env.baseIDOf base w.src) db' ↔ w.TakesLast env base db := by
  obtain ⟨schema, verb, src, now⟩ := w
  simp only at hs
  have harchive : ∀ archive, archiveWrite env db schema src archive now = .ok db' →
      (NamesRevision (env.baseIDOf base src) db' ↔ ((sharedBaseValues base src).2 = "" →
        db.readBaseRevision (env.baseIDOf base src) = 0)) := by
    intro archive h
    obtain ⟨_, _, db1, _, st, db2, ids, db3, -, -, -, hspine, -, hconv, hids, rfl⟩ :=
      archiveWrite_ok h
    rw [namesRevision_writeOutbox]
    by_cases hnk : (sharedBaseValues base src).2 = ""
    · -- without a natural key there is no base to act on
      have hbases : db2.bases = db.bases := by
        have htarget {r} (h : baseLifecycleTarget env schema src = .ok r) : r = none := by
          simp only [baseLifecycleTarget, hs] at h
          split_ifs at h
          · exact (ok.inj h).symm
          · simp [requireNaturalKey, refuse, hnk] at h
        cases archive
        all_goals
          obtain ⟨r, hr, h⟩ := bind_ok.1 hconv
          cases htarget hr
          cases h
          exact (bases_of_spine hspine :)
      simp only [outboxMetaFor, fillBaseMeta, hs, hnk, if_true, Prod.mk.injEq] at hids
      obtain ⟨rfl, rfl⟩ := hids
      rw [readBaseRevision_of_bases hbases]
      exact ⟨fun h _ => h.symm, fun h => (h hnk).symm⟩
    · simp only [outboxMetaFor, fillBaseMeta, hs, hnk, if_false, Prod.mk.injEq] at hids
      obtain ⟨rfl, rfl⟩ := hids
      exact ⟨fun _ h => absurd h hnk, fun _ => rfl⟩
  cases verb with
  | insert =>
    simp only [commit, insertWrite, hs] at h
    obtain ⟨baseID, baseRev, db1, id, db2, db3, db4, root, st, db5, rfl, hup, rfl, hspine, -, hroot,
      hch, hre, rfl⟩ := insertWithBase_ok h
    obtain ⟨rows, -, rfl⟩ := insertRoot_ok hroot
    have hbases : db4.bases = db1.bases := (bases_of_spine (spine_writeChildren hch)).trans
      (bases_of_spine hspine :)
    have hre := readBaseRevision_reactivate hs hre
    rw [baseArchivedAt_of_bases hbases, join_baseArchivedAt_upsert hup,
      readBaseRevision_of_bases hbases, (upsertSharedBase_ok hup).2.2.1] at hre
    exact namesRevision_writeOutbox.trans hre
  | update =>
    simp only [commit, updateWrite, hs] at h
    obtain ⟨baseID, _, db1, root, baseRev, db2, st, db3, rfl, -, hch, hup, hre, rfl⟩ :=
      updateWithBase_ok h
    have hbases : db1.bases = db.bases := (bases_of_spine (spine_writeChildren hch) :)
    have hre := readBaseRevision_reactivate hs hre
    obtain ⟨-, -, hrev, hstate⟩ := upsertSharedBase_ok hup
    rw [hstate, if_pos rfl, baseArchivedAt_of_bases hbases, hrev] at hre
    exact namesRevision_writeOutbox.trans hre
  | archive | unarchive => exact harchive _ h
  | delete vetoed => exact absurd rfl (hverb vetoed)

theorem roleOf7_keepsIdentity {schema : SchemaDecl} (h : schema ∈ personEnv.referencingRoles)
    {verb : RoleVerb} (hverb : ∀ vetoed, verb ≠ .delete vetoed) (id : String) (revision : ℕ)
    (name : String) : RoleWrite.KeepsIdentity personEnv person "person-7"
      ⟨schema, verb, roleOf7 id revision name, now⟩ := by
  refine ⟨roleOf7_onIdentity h .., hverb, by simp [roleOf7, sharedBaseValues, person, columns,
    scalarString], ?_⟩
  simp only [personEnv, List.mem_cons, List.not_mem_nil, or_false] at h
  rcases h with rfl | rfl
  · exact (by decide : student.documentKeys.Nodup)
  · exact (by decide : teacher.documentKeys.Nodup)

/-- The student is archived from an entity that knows the name the teacher has given the person. -/
def freshRun : List (RoleWrite Address) :=
  [⟨student, .insert, roleOf7 "" 0 "Ann", .ms 1⟩, ⟨teacher, .insert, roleOf7 "" 0 "Anna", .ms 2⟩,
    ⟨student, .archive, roleOf7 "s0" 1 "Anna", .ms 3⟩]

theorem carriesTrueState_freshRun :
    (roleMachine personEnv).Always (CarriesTrueState person "person-7") {} freshRun :=
  (carriesTrueState_iff_publishesRow personEnv person "person-7" (by decide) {}
    ⟨rfl, rfl, by simp, by simp⟩ freshRun
    (by simp [freshRun, roleOf7_keepsIdentity, student_registered, teacher_registered])
    (by decide)).2 (by decide)

/-- The student is archived from an entity loaded before the teacher renamed the person. -/
def staleRun : List (RoleWrite Address) :=
  [⟨student, .insert, roleOf7 "" 0 "Ann", .ms 1⟩, ⟨teacher, .insert, roleOf7 "" 0 "Anna", .ms 2⟩,
    ⟨student, .archive, roleOf7 "s0" 1 "Ann", .ms 3⟩]

/-- The archive of `staleRun` publishes the old name under the newest base revision.  Its entity
holds what the base row held after the first write. -/
theorem stale_archive_publishes_old_name :
    (∀ w ∈ staleRun, w.KeepsIdentity personEnv person "person-7") ∧
    Unused personEnv "person-7" {} ∧
    ((roleMachine personEnv).run {} staleRun).isSome ∧
    ((roleMachine personEnv).run {} (staleRun.take 1)).map (fun db =>
        (db.base "person-7").map (baseContent person ·.fields)) =
      some (some (entityContent person (roleOf7 "s0" 1 "Ann"))) ∧
    ¬(roleMachine personEnv).Always (CarriesTrueState person "person-7") {} staleRun :=
  ⟨by simp [staleRun, roleOf7_keepsIdentity, student_registered, teacher_registered],
    ⟨rfl, rfl, by simp, by simp⟩, by decide, by decide, by decide⟩

/-- The second role of a live person. -/
theorem namesRevision_new_person :
    ∃ db db', (roleMachine personEnv).run {} [⟨student, .insert, roleOf7 "" 0 "Ann", 1⟩] = some db ∧
      commit personEnv db ⟨teacher, .insert, roleOf7 "" 0 "Ann", 2⟩ = .ok db' ∧
      NamesRevision (personEnv.baseIDOf person (roleOf7 "" 0 "Ann")) db' := by
  obtain ⟨db, hrun, db', h, hlive⟩ : ∃ db,
      (roleMachine personEnv).run {} [⟨student, .insert, roleOf7 "" 0 "Ann", 1⟩] = some db ∧
      ∃ db', commit personEnv db ⟨teacher, .insert, roleOf7 "" 0 "Ann", 2⟩ = .ok db' ∧
        db.baseArchivedAt "person-7" = some none := ⟨_, rfl, _, rfl, rfl⟩
  refine ⟨db, db', hrun, h, (namesRevision_iff rfl (by simp) h).2 fun _ => ?_⟩
  exact congrArg Option.join hlive

/-- The teacher of an archived person restores it and names the revision before. -/
theorem restoring_insert_names_old_revision :
    ∃ db db', (roleMachine personEnv).run {} [⟨student, .insert, roleOf7 "" 0 "Ann", 1⟩,
        ⟨student, .archive, roleOf7 "s0" 1 "Ann", 2⟩] = some db ∧
      commit personEnv db ⟨teacher, .insert, roleOf7 "" 0 "Ann", 3⟩ = .ok db' ∧
      ¬ NamesRevision "person-7" db' := by
  refine ⟨_, _, rfl, rfl, ?_⟩
  rintro ⟨ev, hev, h⟩
  cases hev
  exact absurd h (by decide)

end Omnicore.Write
