import Omnicore.Write.BaseLifecycle

/-!
# What a write leaves of an identity

Seen from a shared base row, a committed write of one of its roles does one of four things: it
creates the row, advances its revision, leaves it absent, or purges it.  Every write tells the
outbox one event of the role, and a purge one more on the topic of the base.

## Main results

* `RoleWrite.commit_identityStep` : every committed write is one of these steps.
-/

namespace Omnicore.Write

open Omnicore.Core Database

/-- The outbox is untouched, and the base row of an identity, if there is one, is rewritten with its
revision advanced by at least `k`. -/
structure Revises (baseID : String) (k : ℕ) (db db' : Database) : Prop where
  outbox : db'.outbox = db.outbox
  base : ∃ f : BaseRow → BaseRow, db'.base baseID = (db.base baseID).map f ∧
    ∀ b, b.revision + k ≤ (f b).revision

namespace Revises

variable {baseID : String} {j k : ℕ} {db db' db'' : Database}

theorem of_spine (h : db'.spine = db.spine) : Revises baseID 0 db db' :=
  ⟨congrArg (·.2.2.2) h, id, by rw [base_of_spine h]; simp, fun _ => le_rfl⟩

theorem setRoots (baseID : String) (db : Database) (table : String) (rows : Table RootRow) :
    Revises baseID 0 db (db.setRoots table rows) :=
  ⟨rfl, id, by simp [Database.base, Database.setRoots], fun _ => le_rfl⟩

theorem trans (h : Revises baseID j db db') (h' : Revises baseID k db' db'') :
    Revises baseID (j + k) db db'' := by
  obtain ⟨f, hf, hrev⟩ := h.base
  obtain ⟨g, hg, hrev'⟩ := h'.base
  refine ⟨h'.outbox.trans h.outbox, g ∘ f, by rw [hg, hf, Option.map_map], fun b => ?_⟩
  have := hrev b
  have := hrev' (f b)
  simp only [Function.comp]
  omega

theorem updateBase (db : Database) (baseID : String) (p : BaseRow → Bool)
    (f : BaseRow → BaseRow) : Revises baseID 0 db (db.updateBase baseID p f) := by
  refine ⟨rfl, _, base_updateBase db baseID p f, fun b => ?_⟩
  split_ifs
  · exact Nat.le_succ _
  · exact le_rfl

theorem updateBase_all (f : BaseRow → BaseRow) :
    Revises baseID 1 db (db.updateBase baseID (fun _ => true) f) :=
  ⟨rfl, _, base_updateBase db baseID _ f, fun _ => le_rfl⟩

theorem base_some (h : Revises baseID k db db') {b : BaseRow} (hb : db.base baseID = some b) :
    ∃ b', db'.base baseID = some b' ∧ b.revision + k ≤ b'.revision := by
  obtain ⟨f, hf, hrev⟩ := h.base
  exact ⟨f b, by rw [hf, hb]; rfl, hrev b⟩

theorem base_none (h : Revises baseID k db db') (hb : db.base baseID = none) :
    db'.base baseID = none := by
  obtain ⟨f, hf, -⟩ := h.base
  rw [hf, hb]
  rfl

end Revises

/-- An event of a role about an identity. -/
structure IsRoleEvent (schema : SchemaDecl) (baseID : String) (ev : OutboxRow) : Prop where
  aggregateType : ev.aggregateType = schema.table
  baseID_eq : ev.payload.ids.baseID = baseID

/-- The event of a purge. -/
structure IsPurgeEvent (base : BaseSchema) (baseID : String) (ev : OutboxRow) : Prop where
  aggregateType : ev.aggregateType = base.table
  eventType : ev.eventType = .deleted
  aggregateID : ev.aggregateID = baseID

/-! ### The statements of a verb -/

section

variable {α : Type} {env : Env} {db db' : Database} {schema : SchemaDecl} {base : BaseSchema}
  {col : String} {src : Entity α} {now : Instant}

variable (hs : schema.sharedBase = some ⟨base, col⟩)
include hs

theorem revises_of_touches (h : TouchesBase (env.sharedBaseID schema src) db db') :
    Revises (env.baseIDOf base src) 0 db db' := by
  rw [sharedBaseID_eq hs] at h
  rcases h with h | ⟨p, f, h, -⟩
  · exact .of_spine h
  · exact (Revises.updateBase ..).trans (.of_spine h)

theorem convergeBaseAfterHardDelete_identity {vetoed basePurged : Bool}
    (h : convergeBaseAfterHardDelete env db schema src now vetoed = .ok (basePurged, db')) :
    (basePurged = false ∧ Revises (env.baseIDOf base src) 0 db db') ∨
    (basePurged = true ∧ db'.base (env.baseIDOf base src) = none ∧
      ∃ ev, db'.outbox = db.outbox ++ [ev] ∧ IsPurgeEvent base (env.baseIDOf base src) ev) := by
  have hid : env.sharedBaseID schema src = env.baseIDOf base src := sharedBaseID_eq hs
  rcases convergeBaseAfterHardDelete_cases h with
    ⟨rfl, -, link, hlink, rfl⟩ | ⟨rfl, -, st, hconv⟩
  · obtain rfl : link = ⟨base, col⟩ := Option.some.inj (hlink.symm.trans hs)
    have hspine := spine_deleteChildren base.children (env.baseIDOf base src) db
    rw [hid]
    refine .inr ⟨rfl, ?_, _, congrArg (· ++ _) (congrArg (·.2.2.2) hspine), rfl, rfl, rfl⟩
    simp [Database.writeOutbox, Database.deleteBase, Database.base, Table.find_delete_key]
  · exact .inl ⟨rfl, revises_of_touches hs (convergeBase_touches hconv)⟩

theorem fillBaseMeta_revises {ids ids' : OutboxMeta} (hnk : (sharedBaseValues base src).2 ≠ "")
    (h : fillBaseMeta env db schema src ids = (ids', db')) :
    ids'.baseID = env.baseIDOf base src ∧ Revises (env.baseIDOf base src) 1 db db' := by
  simp only [fillBaseMeta, hs, hnk, if_false] at h
  cases h
  exact ⟨rfl, Revises.updateBase_all ..⟩

omit hs

theorem upsertSharedBase_revises {baseID : String} {fields : Fields} {rev : ℕ} {baseExists : Bool}
    (h : upsertSharedBase db base baseID fields baseExists now = .ok (rev, db')) :
    (baseExists = true → Revises baseID 1 db db') ∧
    (baseExists = false → db'.outbox = db.outbox ∧
      ∃ b, db'.base baseID = some b ∧ b.revision = 1) := by
  cases baseExists with
  | true =>
    cases h
    exact ⟨fun _ => Revises.updateBase_all .., fun h => Bool.noConfusion h⟩
  | false =>
    simp only [upsertSharedBase, Bool.false_eq_true, if_false, Except.bind_ok, Except.pure_ok] at h
    obtain ⟨db1, h1, h⟩ := h
    cases h
    obtain ⟨rows, hrows, rfl⟩ := insertBase_ok h1
    have hfind := (Table.find_insert hrows baseID).trans (if_pos rfl)
    exact ⟨fun h => Bool.noConfusion h, fun _ => ⟨rfl, _, hfind, rfl⟩⟩

end

/-- What a committed write leaves of an identity: the row created at its first revision, advanced,
still absent, or purged; and the events that tell it. -/
inductive IdentityStep (schema : SchemaDecl) (base : BaseSchema) (baseID : String)
    (verb : RoleVerb) (db db' : Database) : Prop where
  | created (b : BaseRow) (ev : OutboxRow) (hverb : verb = .insert) (hold : db.base baseID = none)
      (hnew : db'.base baseID = some b) (hrev : 0 < b.revision)
      (hout : db'.outbox = db.outbox ++ [ev]) (hev : IsRoleEvent schema baseID ev)
  | advanced (b b' : BaseRow) (ev : OutboxRow) (hold : db.base baseID = some b)
      (hnew : db'.base baseID = some b') (hrev : b.revision < b'.revision)
      (hout : db'.outbox = db.outbox ++ [ev]) (hev : IsRoleEvent schema baseID ev)
  | absent (evs : List OutboxRow) (hold : db.base baseID = none) (hnew : db'.base baseID = none)
      (hout : db'.outbox = db.outbox ++ evs)
  | purged (b : BaseRow) (ev ev' : OutboxRow) (hold : db.base baseID = some b)
      (hnew : db'.base baseID = none) (hout : db'.outbox = db.outbox ++ [ev, ev'])
      (hpurge : IsPurgeEvent base baseID ev) (hev : IsRoleEvent schema baseID ev')

section

variable {α : Type} {env : Env} {db db' : Database} {schema : SchemaDecl} {base : BaseSchema}
  {col : String} {src : Entity α} {now : Instant} {verb : RoleVerb}

theorem IdentityStep.of_revises {baseID : String} {k : ℕ} {db1 : Database} {ev : OutboxRow}
    (h : Revises baseID (k + 1) db db1) (hev : IsRoleEvent schema baseID ev)
    (hbase : db'.base baseID = db1.base baseID) (hout : db'.outbox = db1.outbox ++ [ev]) :
    IdentityStep schema base baseID verb db db' := by
  have hout' := hout.trans (by rw [h.outbox])
  cases hb : db.base baseID with
  | none => exact .absent [ev] hb (hbase.trans (h.base_none hb)) hout'
  | some b =>
    obtain ⟨b', hb', hrev⟩ := h.base_some hb
    exact .advanced b b' ev hb (hbase.trans hb') (by omega) hout' hev

variable [PersistentItem α]

section

variable (hs : schema.sharedBase = some ⟨base, col⟩)
include hs

theorem insertWithBase_identityStep
    (h : insertWithBase env db schema ⟨base, col⟩ src now = .ok db') :
    IdentityStep schema base (env.baseIDOf base src) .insert db db' := by
  obtain ⟨baseID, baseRev, db1, id, db2, db3, db4, root, st, db5, rfl, hup, rfl, hspine, -, hroot,
    hch, hre, rfl⟩ := insertWithBase_ok h
  obtain ⟨rows, -, rfl⟩ := insertRoot_ok hroot
  obtain ⟨hold, hnew⟩ := upsertSharedBase_revises hup
  have hrest : Revises (env.baseIDOf base src) 0 db1 db5 :=
    (((Revises.of_spine hspine).trans (.setRoots ..)).trans
      (.of_spine (spine_writeChildren hch))).trans
        (revises_of_touches hs (reactivateBaseIfArchived_touches hre))
  cases hb : db.base (env.baseIDOf base src) with
  | none =>
    obtain ⟨hout, b, hb1, hrev⟩ := hnew (by simp [hb])
    obtain ⟨b', hb', hrev'⟩ := hrest.base_some hb1
    refine .created b' _ rfl hb hb' (by omega) (congrArg (· ++ _) (hrest.outbox.trans hout)) ?_
    exact ⟨rfl, rfl⟩
  | some b =>
    refine .of_revises (k := 0) ((hold (by simp [hb])).trans hrest) ?_ rfl rfl
    exact ⟨rfl, rfl⟩

theorem updateWithBase_identityStep
    (h : updateWithBase env db schema ⟨base, col⟩ src now = .ok db') :
    IdentityStep schema base (env.baseIDOf base src) .update db db' := by
  obtain ⟨baseID, _, db1, root, baseRev, db2, st, db3, rfl, -, hch, hup, hre, rfl⟩ :=
    updateWithBase_ok h
  have hrev := (((Revises.setRoots (env.baseIDOf base src) db schema.table _).trans
    (.of_spine (spine_writeChildren hch))).trans ((upsertSharedBase_revises hup).1 rfl)).trans
      (revises_of_touches hs (reactivateBaseIfArchived_touches hre))
  refine .of_revises (k := 0) hrev ?_ rfl rfl
  exact ⟨rfl, rfl⟩

theorem archiveWrite_identityStep {archive : Bool} (hnk : (sharedBaseValues base src).2 ≠ "")
    (h : archiveWrite env db schema src archive now = .ok db') :
    IdentityStep schema base (env.baseIDOf base src) verb db db' := by
  obtain ⟨_, _, db1, _, st, db2, ids, db3, -, -, -, hspine, -, hconv, hids, rfl⟩ :=
    archiveWrite_ok h
  obtain ⟨hid, hfill⟩ := fillBaseMeta_revises hs hnk hids
  have hrev := (((Revises.of_spine hspine).trans (.setRoots ..)).trans
    (revises_of_touches hs (convergeBase_touches hconv))).trans hfill
  refine .of_revises (k := 0) hrev ?_ rfl rfl
  exact ⟨rfl, hid⟩

omit [PersistentItem α] in
/-- A hard delete advances the base, or purges it and tells so on the topic of the base. -/
theorem hardDelete_identityStep {vetoed : Bool} (hnk : (sharedBaseValues base src).2 ≠ "")
    (h : hardDelete env db schema src now vetoed = .ok db') :
    IdentityStep schema base (env.baseIDOf base src) (.delete vetoed) db db' := by
  obtain ⟨db1, basePurged, db2, ids, db3, -, hspine, hconv, hids, rfl⟩ := hardDelete_ok h
  have hdel : Revises (env.baseIDOf base src) 0 db (db1.deleteRoot schema.table src.id) :=
    (Revises.of_spine hspine).trans (.setRoots ..)
  rcases convergeBaseAfterHardDelete_identity hs hconv with ⟨rfl, hkeep⟩ | ⟨rfl, hnone, hout⟩
  · -- kept: the clock of the base advances
    obtain ⟨hid, hfill⟩ := fillBaseMeta_revises hs hnk hids
    refine .of_revises (k := 0) ((hdel.trans hkeep).trans hfill) ?_ rfl rfl
    exact ⟨rfl, hid⟩
  · -- purged
    simp only [deleteMeta, if_true, hs, hnk, if_false, Prod.mk.injEq] at hids
    obtain ⟨rfl, rfl⟩ := hids
    obtain ⟨ev, hout, hev⟩ := hout
    have hout' (ev' : OutboxRow) : db2.outbox ++ [ev'] = db.outbox ++ [ev, ev'] := by
      rw [hout, hdel.outbox, List.append_assoc]
      rfl
    cases hb : db.base (env.baseIDOf base src) with
    | none => exact .absent _ hb hnone (hout' _)
    | some b => exact .purged b ev _ hb hnone (hout' _) hev ⟨rfl, rfl⟩

end

/-- **Step.** Every committed write of a role is one step of its identity. -/
theorem RoleWrite.commit_identityStep {w : RoleWrite α} {baseID : String}
    (hw : w.OnIdentity env base baseID) (hnk : (sharedBaseValues base w.src).2 ≠ "")
    (h : w.commit env db = .ok db') : IdentityStep w.schema base baseID w.verb db db' := by
  obtain ⟨-, ⟨col, hs⟩, rfl⟩ := hw
  obtain ⟨schema, verb, src, now⟩ := w
  simp only at hs hnk
  cases verb with
  | insert =>
    simp only [commit, insertWrite, hs] at h
    exact insertWithBase_identityStep hs h
  | update =>
    simp only [commit, updateWrite, hs] at h
    exact updateWithBase_identityStep hs h
  | archive | unarchive => exact archiveWrite_identityStep hs hnk h
  | delete vetoed => exact hardDelete_identityStep hs hnk h

end

end Omnicore.Write
