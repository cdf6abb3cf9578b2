import Omnicore.Lib.Machine
import Omnicore.Write.AggregateWrite

/-!
# The lifecycle of a shared base

A shared base is driven by the roles that reference it.  Run serially, the verbs of the roles keep
it in step with them: the base row is active exactly while some registered role row referencing it
is active, and a base that is deleted when unreferenced exists exactly while some role row
references it.  The exception is the update of an archived role row, which restores the base and
leaves its row archived.

## Main results

* `base_follows_roles` : along a run on one identity the base stays in step with its roles exactly
  if every update that commits finds an active role.
-/

namespace Omnicore.Write

open Omnicore.Core Option Except RootRow Database Function

variable {α : Type}

/-- The verbs of a role; a hard delete says whether a foreign key outside the registry vetoes a
purge. -/
inductive RoleVerb where
  | insert
  | update
  | archive
  | unarchive
  | delete (vetoed : Bool)
  deriving DecidableEq, Repr

/-- The purge of a verb is vetoed by a foreign key outside the registry. -/
def RoleVerb.vetoed : RoleVerb → Bool
  | .delete vetoed => vetoed
  | _ => false

/-- One write of a role. -/
structure RoleWrite (α : Type) where
  schema : SchemaDecl
  verb : RoleVerb
  src : Entity α
  now : Instant

namespace RoleWrite

variable (env : Env)

/-- The row a write acts on references the identity of its entity.  Neither the link of a row nor
the natural key of an entity ever changes, so this holds however early the entity was loaded. -/
def ofRow (db : Database) (w : RoleWrite α) : Bool :=
  match w.verb with
  | .insert => true
  | _ => (db.root w.schema.table w.src.id).all fun r =>
    w.schema.sharedBase.all fun link => r.link w.schema = env.baseIDOf link.base w.src

/-- The transaction of a write. -/
def commit [PersistentItem α] (db : Database) (w : RoleWrite α) : Except WriteError Database :=
  match w.verb with
  | .insert => insertWrite env db w.schema w.src w.now
  | .update => updateWrite env db w.schema w.src w.now
  | .archive => archiveWrite env db w.schema w.src true w.now
  | .unarchive => archiveWrite env db w.schema w.src false w.now
  | .delete vetoed => hardDelete env db w.schema w.src w.now vetoed

/-- The write is by a registered role of the base and on the identity `baseID`. -/
structure OnIdentity (base : BaseSchema) (baseID : String) (w : RoleWrite α) : Prop where
  registered : w.schema ∈ env.referencingRoles
  base_eq : ∃ parentIDColumn, w.schema.sharedBase = some ⟨base, parentIDColumn⟩
  identity : env.baseIDOf base w.src = baseID

end RoleWrite

/-- Serial writes: each commits before the next one, and a refused one leaves the store as it
was. -/
def serialMachine [PersistentItem α] (env : Env) : Machine Database (RoleWrite α) where
  step db w := if w.ofRow env db then some ((w.commit env db).toOption.getD db) else none

variable (env : Env) (baseID : String) (db : Database) (schema : SchemaDecl) (src : Entity α)

/-- The archived state of the base row, absent with the row. -/
def Database.baseArchivedAt (db : Database) (baseID : String) : Option (Option Instant) :=
  (db.base baseID).map BaseRow.archivedAt

/-- The base row, if present, is active exactly while an active role row references it. -/
def ActiveWithRoles : Prop :=
  ∀ b, db.base baseID = some b → (b.archivedAt = none ↔ anyActiveRole env db baseID = true)

/-- The base row is absent exactly while no role row references it. -/
def PresentWithRoles : Prop := db.base baseID = none ↔ anyRoleRowReferences env db baseID = false

/-- An update that commits finds an active role of the identity. -/
def UpdatesActive [PersistentItem α] (env : Env) (baseID : String) (db : Database)
    (w : RoleWrite α) : Prop :=
  w.verb = .update → (w.commit env db).isOk → anyActiveRole env db baseID = true

/-- A base that is referenced is there. -/
def HasBase : Prop := anyRoleRowReferences env db baseID = true → (db.baseArchivedAt baseID).isSome

instance [PersistentItem α] (env : Env) (baseID : String) (db : Database) (w : RoleWrite α) :
    Decidable (UpdatesActive env baseID db w) :=
  inferInstanceAs (Decidable (w.verb = .update → _))

instance (env : Env) (baseID : String) : DecidablePred (ActiveWithRoles env baseID) := fun db =>
  decidable_of_iff (∀ b ∈ db.base baseID, b.archivedAt = none ↔ anyActiveRole env db baseID = true)
    Iff.rfl

instance (env : Env) (baseID : String) : DecidablePred (PresentWithRoles env baseID) := fun db =>
  inferInstanceAs (Decidable (db.base baseID = none ↔ _))

/-! ### The steps of a verb -/

/-- The id of the base an entity references. -/
def Env.sharedBaseID : String :=
  (schema.sharedBase.map fun link => env.baseIDOf link.base src).getD ""

/-- The stamp the cascade over the native children of the base acts on, read from the store in which
the role row has moved: that of the operation when the archived role was the last active one, that
of the base when it is restored. -/
def baseStamp (archive : Bool) (now : Instant) : Option Instant :=
  if schema.sharedBase.any (·.base.archivedAt.isSome) then
    if archive then if anyActiveRole env db (env.sharedBaseID schema src) then none else some now
    else (db.base (env.sharedBaseID schema src)).bind BaseRow.archivedAt
  else none

/-- A hard delete purges the base: its policy asks for it, no role row references it, and the
database does not veto. -/
def PurgesBase (vetoed : Bool) (db : Database) : Prop :=
  schema.sharedBase.any (·.base.orphanPolicy = .deleteWhenUnreferenced) ∧ vetoed = false ∧
    anyRoleRowReferences env db (env.sharedBaseID schema src) = false

/-- A step that leaves the spine of the store, or rewrites one base row beside its columns. -/
def TouchesBase (db' : Database) : Prop :=
  db'.spine = db.spine ∨ ∃ p f, db'.spine = (db.updateBase baseID p f).spine ∧
    ∀ r : BaseRow, (f r).fields = r.fields

/-- A step that advances the clock of one identity at most. -/
def AdvancesClock (db' : Database) : Prop := db' = db ∨ ∃ baseID, db' = bumpBaseRevision db baseID

section

variable {env : Env} {db db' : Database} {schema : SchemaDecl} {base : BaseSchema}
  {col baseID : String} {src : Entity α} {now : Instant}

theorem TouchesBase.roots (h : TouchesBase baseID db db') : db'.roots = db.roots := by
  rcases h with h | ⟨p, f, h, -⟩ <;> exact (congrArg (·.1) h :)

theorem TouchesBase.outbox (h : TouchesBase baseID db db') : db'.outbox = db.outbox := by
  rcases h with h | ⟨p, f, h, -⟩ <;> exact (congrArg (·.2.2.2) h :)

theorem baseArchivedAt_of_spine (h : db'.spine = db.spine) (id : String) :
    db'.baseArchivedAt id = db.baseArchivedAt id := by
  rw [baseArchivedAt, base_of_spine h, baseArchivedAt]

theorem baseArchivedAt_updateBase (id : String) (p : BaseRow → Bool) (f : BaseRow → BaseRow) :
    (db.updateBase baseID p f).baseArchivedAt id =
      (db.base id).map fun r => if id = baseID ∧ p r then (f r).archivedAt else r.archivedAt := by
  simp only [baseArchivedAt, base, updateBase, Table.find_modify]
  cases hr : db.bases.find id with
  | none => rfl
  | some r =>
    have hid : r.id = id := (Table.find_eq_some_iff.1 hr).2
    simp only [map_some, hid, Bool.and_eq_true, decide_eq_true_eq]
    split_ifs <;> rfl

theorem baseLifecycleTarget_cases {r : Option (BaseSchema × String)}
    (h : baseLifecycleTarget env schema src = .ok r) :
    (r = none ∧ schema.sharedBase.any (·.base.archivedAt.isSome) = false) ∨
    ∃ link, schema.sharedBase = some link ∧ r = some (link.base, env.sharedBaseID schema src) ∧
      schema.sharedBase.any (·.base.archivedAt.isSome) = true := by
  unfold baseLifecycleTarget at h
  split at h
  · rename_i hlink
    cases h
    exact .inl ⟨rfl, by simp [hlink]⟩
  · rename_i link hlink
    split_ifs at h with hcol
    · cases h
      exact .inl ⟨rfl, by simpa [hlink] using hcol⟩
    · simp only [bind_ok] at h
      obtain ⟨-, -, h⟩ := h
      cases h
      exact .inr ⟨link, hlink, by simp [Env.sharedBaseID, hlink],
        by simpa [hlink, isSome_iff_ne_none] using hcol⟩

variable {vetoed archive : Bool} {db₁ db₂ : Database} {st : Option Instant}

theorem sharedBaseID_eq (hs : schema.sharedBase = some ⟨base, col⟩) :
    env.sharedBaseID schema src = env.baseIDOf base src := by
  simp [Env.sharedBaseID, hs]

section

variable (h : convergeBaseAfterArchiveWrite env db schema src archive now = .ok (st, db'))
include h

/-- What the base step of an archive verb has done: nothing without a stamp, the cascade of the base
around it otherwise. -/
theorem convergeBase_cases :
    st = baseStamp env db schema src archive now ∧
    (st = none ∧ db' = db ∨ ∃ link stamp, schema.sharedBase = some link ∧ st = some stamp ∧
      (archive = true → stamp = now) ∧
      db' = bif archive then archiveBaseCascade db link.base (env.sharedBaseID schema src) stamp
        else unarchiveBaseCascade db link.base (env.sharedBaseID schema src) (some stamp)) := by
  cases archive
  all_goals
    simp only [convergeBaseAfterArchiveWrite, archiveBaseIfNoActiveRole, reactivateBaseIfArchived,
      if_true, Bool.false_eq_true, if_false, bind_ok] at h
    obtain ⟨r, hr, h⟩ := h
    obtain ⟨rfl, hany⟩ | ⟨link, hlink, rfl, hany⟩ := baseLifecycleTarget_cases hr
    · cases h
      exact ⟨by simp [baseStamp, hany], .inl ⟨rfl, rfl⟩⟩
    simp only at h
  case true =>
    split_ifs at h with hact
    · cases h
      exact ⟨by simp [baseStamp, hany, hact], .inl ⟨rfl, rfl⟩⟩
    · cases h
      exact ⟨by simp [baseStamp, hany, hact], .inr ⟨link, now, hlink, rfl, fun _ => rfl, rfl⟩⟩
  case false =>
    split at h
    · rename_i hstamp
      cases h
      exact ⟨by simp [baseStamp, hany, hstamp], .inl ⟨rfl, rfl⟩⟩
    · rename_i stamp hstamp
      cases h
      exact ⟨by simp [baseStamp, hany, hstamp], .inr ⟨link, stamp, hlink, rfl, nofun, rfl⟩⟩

theorem convergeBase_touches : TouchesBase (env.sharedBaseID schema src) db db' := by
  obtain ⟨-, ⟨-, rfl⟩ | ⟨link, stamp, -, -, -, rfl⟩⟩ := convergeBase_cases h
  · exact .inl rfl
  · cases archive with
    | true => exact .inr ⟨_, _, spine_archiveBaseCascade .., fun _ => rfl⟩
    | false => exact .inr ⟨_, _, spine_unarchiveBaseCascade .., fun _ => rfl⟩

theorem baseArchivedAt_convergeBase (id : String) :
    db'.baseArchivedAt id = (db.baseArchivedAt id).map fun t =>
      if id = env.sharedBaseID schema src ∧ st.isSome then
        if archive then some (t.getD now) else none
      else t := by
  obtain ⟨-, ⟨rfl, rfl⟩ | ⟨link, stamp, hlink, rfl, hnow, rfl⟩⟩ := convergeBase_cases h
  · simp
  · cases archive
    case' true =>
      obtain rfl := hnow rfl
      rw [cond_true, baseArchivedAt_of_spine (spine_archiveBaseCascade ..)]
    case' false => rw [cond_false, baseArchivedAt_of_spine (spine_unarchiveBaseCascade ..)]
    all_goals
      rw [baseArchivedAt_updateBase, baseArchivedAt, map_map]
      congr 1
      funext r
      cases hr : r.archivedAt <;> simp [hr]

end

theorem reactivateBaseIfArchived_touches
    (h : reactivateBaseIfArchived env db schema src = .ok (st, db')) :
    TouchesBase (env.sharedBaseID schema src) db db' :=
  convergeBase_touches (show convergeBaseAfterArchiveWrite env db schema src false 1 = _ from h)

section

variable (hs : schema.sharedBase = some ⟨base, col⟩) (hb : base.archivedAt.isSome)
include hs hb

theorem baseArchivedAt_reactivateBase
    (h : reactivateBaseIfArchived env db schema src = .ok (st, db')) :
    db'.baseArchivedAt (env.baseIDOf base src) =
      (db.baseArchivedAt (env.baseIDOf base src)).map fun _ => none := by
  have h : convergeBaseAfterArchiveWrite env db schema src false 1 = .ok (st, db') := h
  have hst := (convergeBase_cases h).1
  rw [baseArchivedAt_convergeBase h]
  simp only [baseStamp, sharedBaseID_eq hs, hs, any_some, hb] at hst ⊢
  cases hbase : db.base (env.baseIDOf base src) with
  | none => simp [baseArchivedAt, hbase]
  | some b => cases hb : b.archivedAt <;> simp_all [baseArchivedAt]

/-- What an archive of the base leaves: an archived base, unless an active role references it. -/
theorem baseArchivedAt_archiveBase
    (h : archiveBaseIfNoActiveRole env db schema src now = .ok (st, db')) :
    db'.baseArchivedAt (env.baseIDOf base src) =
      (db.baseArchivedAt (env.baseIDOf base src)).map fun t =>
        if anyActiveRole env db (env.baseIDOf base src) then t else some (t.getD now) := by
  have h : convergeBaseAfterArchiveWrite env db schema src true now = .ok (st, db') := h
  have hst := (convergeBase_cases h).1
  rw [baseArchivedAt_convergeBase h]
  simp only [baseStamp, sharedBaseID_eq hs, hs, any_some, hb, if_true] at hst ⊢
  cases hact : anyActiveRole env db (env.baseIDOf base src) <;> simp [hst, hact]

end

theorem anyActiveRole_eq_true : anyActiveRole env db baseID = true ↔
    ∃ rr ∈ env.referencingRoles, ∃ r ∈ (db.roots rr.table).rows,
      r.link rr = baseID ∧ r.isActive rr = true := by
  simp [anyActiveRole, findActiveRoleByFK]

theorem anyRoleRowReferences_eq_true : anyRoleRowReferences env db baseID = true ↔
    ∃ rr ∈ env.referencingRoles, ∃ r ∈ (db.roots rr.table).rows, r.link rr = baseID := by
  simp [anyRoleRowReferences]

theorem anyActiveRole_references (h : anyActiveRole env db baseID = true) :
    anyRoleRowReferences env db baseID = true := by
  obtain ⟨rr, hrr, r, hr, hl, -⟩ := anyActiveRole_eq_true.1 h
  exact anyRoleRowReferences_eq_true.2 ⟨rr, hrr, r, hr, hl⟩

theorem anyActiveRole_congr (h : db'.roots = db.roots) (baseID : String) :
    anyActiveRole env db' baseID = anyActiveRole env db baseID := by
  simp [anyActiveRole, findActiveRoleByFK, h]

theorem anyRoleRowReferences_congr (h : db'.roots = db.roots) (baseID : String) :
    anyRoleRowReferences env db' baseID = anyRoleRowReferences env db baseID := by
  simp [anyRoleRowReferences, h]

/-- What an upsert leaves: the archived state of an existing base, an active new one. -/
theorem upsertSharedBase_ok {fields : Fields} {baseExists : Bool} {rev : ℕ}
    (h : upsertSharedBase db base baseID fields baseExists now = .ok (rev, db')) :
    db'.roots = db.roots ∧ db'.children = db.children ∧ db'.readBaseRevision baseID = rev ∧
      db'.baseArchivedAt baseID = if baseExists then db.baseArchivedAt baseID else some none := by
  cases baseExists with
  | true =>
    cases h
    refine ⟨rfl, rfl, rfl, ?_⟩
    rw [baseArchivedAt, base_updateBase, map_map]
    rfl
  | false =>
    simp only [upsertSharedBase, Bool.false_eq_true, if_false, bind_ok, pure_ok] at h
    obtain ⟨db₁, h1, h⟩ := h
    cases h
    obtain ⟨rows, hrows, rfl⟩ := insertBase_ok h1
    refine ⟨rfl, rfl, ?_⟩
    simp [Database.baseArchivedAt, readBaseRevision, Database.base, Table.find_insert hrows,
      Keyed.key]

theorem join_baseArchivedAt (id : String) :
    (db.baseArchivedAt id).join = (db.base id).bind BaseRow.archivedAt := by
  rw [baseArchivedAt]
  cases db.base id <;> rfl

theorem join_baseArchivedAt_upsert {fields : Fields} {rev : ℕ}
    (h : upsertSharedBase db base baseID fields (db.base baseID).isSome now = .ok (rev, db')) :
    (db'.baseArchivedAt baseID).join = (db.baseArchivedAt baseID).join := by
  rw [(upsertSharedBase_ok h).2.2.2]
  split_ifs with hex
  · rfl
  · rw [join_baseArchivedAt, not_isSome_iff_eq_none.1 hex]
    rfl

theorem AdvancesClock.frame (h : AdvancesClock db db') :
    db'.roots = db.roots ∧ db'.children = db.children ∧ db'.outbox = db.outbox ∧
      ∀ id, db'.baseArchivedAt id = db.baseArchivedAt id := by
  obtain rfl | ⟨baseID, rfl⟩ := h
  · exact ⟨rfl, rfl, rfl, fun _ => rfl⟩
  · refine ⟨rfl, rfl, rfl, fun id => ?_⟩
    rw [bumpBaseRevision, baseArchivedAt_updateBase]
    simp [baseArchivedAt]

theorem fillBaseMeta_advances (ids : OutboxMeta) :
    AdvancesClock db (fillBaseMeta env db schema src ids).2 := by
  rw [fillBaseMeta]
  split
  · exact .inl rfl
  · split_ifs
    exacts [.inl rfl, .inr ⟨_, rfl⟩]

theorem outboxMetaFor_advances {id : String} {ids : OutboxMeta}
    (h : outboxMetaFor env db schema src id = (ids, db')) : AdvancesClock db db' :=
  (show _ = db' from congrArg Prod.snd h) ▸ fillBaseMeta_advances ..

theorem deleteMeta_advances {ids ids' : OutboxMeta}
    (h : deleteMeta env db schema src ids = (ids', db')) : AdvancesClock db db' := by
  obtain rfl : (deleteMeta env db schema src ids).2 = db' := congrArg Prod.snd h
  rw [deleteMeta]
  split_ifs
  · split <;> exact .inl rfl
  · exact fillBaseMeta_advances ..

/-! ### What each verb does to the base -/

theorem activeWithRoles_iff : ActiveWithRoles env baseID db ↔ ∀ t,
    db.baseArchivedAt baseID = some t → (t = none ↔ anyActiveRole env db baseID = true) := by
  simp only [ActiveWithRoles, baseArchivedAt, map_eq_some_iff]
  constructor
  · rintro h t ⟨b, hb, rfl⟩; exact h b hb
  · intro h b hb; exact h _ ⟨b, hb, rfl⟩

theorem presentWithRoles_iff : PresentWithRoles env baseID db ↔
    (db.baseArchivedAt baseID = none ↔ anyRoleRowReferences env db baseID = false) := by
  simp [PresentWithRoles, baseArchivedAt]

theorem PresentWithRoles.isSome (h : PresentWithRoles env baseID db)
    (href : anyRoleRowReferences env db baseID = true) : (db.baseArchivedAt baseID).isSome := by
  rw [presentWithRoles_iff, href] at h
  rw [isSome_iff_ne_none]
  intro hnone
  exact Bool.noConfusion (h.1 hnone)

theorem follows_of_active (hact : anyActiveRole env db baseID = true)
    (hb : ∀ t, db.baseArchivedAt baseID = some t → t = none) : ActiveWithRoles env baseID db :=
  activeWithRoles_iff.2 fun t ht => iff_of_true (hb t ht) hact

theorem present_of_references (href : anyRoleRowReferences env db baseID = true)
    (hb : (db.baseArchivedAt baseID).isSome) : PresentWithRoles env baseID db := by
  rw [presentWithRoles_iff, href]
  simp [isSome_iff_ne_none.1 hb]

theorem link_newRootRow (env : Env) (db : Database) (schema : SchemaDecl) (src : Entity α)
    (baseID : String) (now : Instant) : (newRootRow schema src (newRoleID env db schema baseID).1
      (if schema.sharedPK then "" else baseID) now).link schema = baseID := by
  simp only [link, newRootRow, newRoleID]
  split_ifs <;> rfl

theorem insertWithBase_follows [PersistentItem α] (hreg : schema ∈ env.referencingRoles)
    (hs : schema.sharedBase = some ⟨base, col⟩) (hb : base.archivedAt.isSome)
    (h : insertWithBase env db schema ⟨base, col⟩ src now = .ok db') :
    ActiveWithRoles env (env.baseIDOf base src) db' ∧
      PresentWithRoles env (env.baseIDOf base src) db' := by
  obtain ⟨baseID, baseRev, db₁, id, db₂, db3, db4, root, st, db5, rfl, hup, rfl, hspine, -, hroot,
    hch, hre, rfl⟩ := insertWithBase_ok h
  obtain ⟨rows, hrows, rfl⟩ := insertRoot_ok hroot
  have hre2 := baseArchivedAt_reactivateBase hs hb hre
  have hroots := (reactivateBaseIfArchived_touches hre).roots.trans
    (roots_of_spine (spine_writeChildren hch))
  -- the new row is active and references the base
  have hact : anyActiveRole env db5 (env.baseIDOf base src) = true := by
    rw [anyActiveRole_congr hroots, anyActiveRole_eq_true]
    refine ⟨schema, hreg, _, ?_, link_newRootRow env db₁ schema src _ now, ?_⟩
    · simp [setRoots, hrows]
    · simp [isActive, newRootRow]
  have hbase : (db5.baseArchivedAt (env.baseIDOf base src)) = some none := by
    rw [hre2, baseArchivedAt, base_of_spine (spine_writeChildren hch)]
    have hdb1 : (db₂.setRoots schema.table rows).base (env.baseIDOf base src) =
        db₁.base (env.baseIDOf base src) := base_of_spine hspine _
    rw [hdb1, ← baseArchivedAt, (upsertSharedBase_ok hup).2.2.2]
    split_ifs with hsome
    · obtain ⟨b, hb⟩ := isSome_iff_exists.1 hsome
      simp [baseArchivedAt, hb]
    · rfl
  exact ⟨follows_of_active hact fun t ht => (some.inj (hbase.symm.trans ht)).symm,
    present_of_references (anyActiveRole_references hact) (by
      show (db5.baseArchivedAt _).isSome = true
      rw [hbase]; rfl)⟩

theorem link_congr {r r' : RootRow} (hid : r'.id = r.id) (hp : r'.parentID = r.parentID)
    (rr : SchemaDecl) : r'.link rr = r.link rr := by
  simp [link, hid, hp]

/-- A probe of the role tables does not see a write that keeps what it looks at. -/
theorem any_writeRoot {table id : String} {f : RootRow → RootRow} {p : SchemaDecl → RootRow → Bool}
    (hp : ∀ rr r, p rr (written f r) = p rr r) (rr : SchemaDecl) :
    ((db.writeRoot table id f).roots rr.table).rows.any (p rr) =
      (db.roots rr.table).rows.any (p rr) := by
  by_cases ht : rr.table = table
  · subst ht
    simp only [writeRoot, setRoots, update_self, Table.modify, List.any_map]
    congr 1
    funext r
    simp only [comp]
    split_ifs
    · exact hp rr r
    · rfl
  · simp [writeRoot, setRoots, update_of_ne ht]

theorem references_writeRoot {table id : String} {f : RootRow → RootRow}
    (hf : ∀ r, (f r).parentID = r.parentID) (baseID : String) :
    anyRoleRowReferences env (db.writeRoot table id f) baseID =
      anyRoleRowReferences env db baseID := by
  simp only [anyRoleRowReferences]
  congr 1
  funext rr
  refine any_writeRoot (p := fun rr r => r.link rr = baseID) (fun rr r => ?_) rr
  rw [link_congr (show (written f r).id = r.id from rfl) (hf r)]

theorem anyActiveRole_update (now : Instant) (baseID : String) :
    anyActiveRole env (db.writeRoot schema.table src.id (updatedRootRow schema src now)) baseID =
      anyActiveRole env db baseID := by
  simp only [anyActiveRole, findActiveRoleByFK]
  congr 1
  funext rr
  exact any_writeRoot (f := updatedRootRow schema src now)
    (p := fun rr r => r.link rr = baseID && r.isActive rr) (fun _ _ => rfl) rr

theorem baseArchivedAt_of_bases (h : db'.bases = db.bases) (id : String) :
    db'.baseArchivedAt id = db.baseArchivedAt id := by
  rw [baseArchivedAt, base, h]
  rfl

/-- An update leaves an active base, whatever the state of the row it is of. -/
theorem updateWithBase_follows [PersistentItem α]
    (hs : schema.sharedBase = some ⟨base, col⟩) (hb : base.archivedAt.isSome)
    (href : anyRoleRowReferences env db (env.baseIDOf base src) = true)
    (hbase : HasBase env (env.baseIDOf base src) db)
    (h : updateWithBase env db schema ⟨base, col⟩ src now = .ok db') :
    (ActiveWithRoles env (env.baseIDOf base src) db' ↔
      anyActiveRole env db (env.baseIDOf base src) = true) ∧
    PresentWithRoles env (env.baseIDOf base src) db' := by
  obtain ⟨baseID, _, db₁, root, baseRev, db₂, st, db3, rfl, -, hch, hup, hre, rfl⟩ :=
    updateWithBase_ok h
  obtain ⟨hup1, -, -, hup2⟩ := upsertSharedBase_ok hup
  have hspine := spine_writeChildren hch
  have hroots := ((reactivateBaseIfArchived_touches hre).roots.trans hup1).trans
    (roots_of_spine hspine)
  have hstate : db3.baseArchivedAt (env.baseIDOf base src) = some none := by
    have hsome := hbase href
    rw [baseArchivedAt_reactivateBase hs hb hre, hup2, if_pos rfl, baseArchivedAt_of_spine hspine]
    obtain ⟨t, ht⟩ := isSome_iff_exists.1 hsome
    exact congrArg (Option.map fun _ => none) ht
  constructor
  · rw [activeWithRoles_iff]
    have hact : anyActiveRole env db3 (env.baseIDOf base src) = _ :=
      (anyActiveRole_congr hroots _).trans (anyActiveRole_update now _)
    refine ⟨fun hI => hact.symm.trans ((hI none hstate).1 rfl), fun ha t ht => ?_⟩
    exact iff_of_true (some.inj (ht.symm.trans hstate)) (hact.trans ha)
  · refine present_of_references ?_ (by show (db3.baseArchivedAt _).isSome; rw [hstate]; rfl)
    rw [← references_writeRoot (f := updatedRootRow schema src now) fun _ => rfl] at href
    exact (anyRoleRowReferences_congr hroots _).trans href

/-- The rows of the roles after an archive verb: the transition of one row, its link unchanged. -/
theorem archiveWrite_frame [PersistentItem α]
    (h : archiveWrite env db schema src archive now = .ok db') :
    ∃ db₁ st db₂,
      db₁.roots =
        (db.writeRoot schema.table src.id (archivedRootRow schema src archive now)).roots ∧
      db₁.bases = db.bases ∧
      convergeBaseAfterArchiveWrite env db₁ schema src archive now = .ok (st, db₂) ∧
      db'.roots = db₂.roots ∧
      db'.baseArchivedAt (env.baseIDOf base src) = db₂.baseArchivedAt (env.baseIDOf base src) := by
  obtain ⟨_, _, db₁, _, st, db₂, ids, db3, -, -, -, hspine, -, hconv, hids, rfl⟩ :=
    archiveWrite_ok h
  obtain ⟨hf1, -, -, hf2⟩ := (outboxMetaFor_advances hids).frame
  refine ⟨_, st, db₂, ?_, ?_, hconv, hf1, hf2 _⟩
  · simp [writeRoot, setRoots, roots_of_spine hspine]
  · exact (bases_of_spine hspine :)

/-- An archive verb keeps the base row, and the references to it. -/
theorem archiveWrite_hasBase [PersistentItem α] (hbase : HasBase env (env.baseIDOf base src) db)
    (h : archiveWrite env db schema src archive now = .ok db') :
    HasBase env (env.baseIDOf base src) db' := by
  obtain ⟨db₁, st, db₂, hroots, hbases, hconv, hdb', hst⟩ := archiveWrite_frame h
  have hrows := (hdb'.trans (convergeBase_touches hconv).roots).trans hroots
  intro href
  rw [anyRoleRowReferences_congr hrows,
    references_writeRoot (f := archivedRootRow schema src archive now) fun _ => rfl] at href
  rw [hst, baseArchivedAt_convergeBase hconv, isSome_map, baseArchivedAt_of_bases hbases]
  exact hbase href

theorem anyActiveRole_mono (hrows : ∀ t, ∀ r ∈ (db'.roots t).rows, r ∈ (db.roots t).rows)
    (h : anyActiveRole env db' baseID = true) : anyActiveRole env db baseID = true := by
  obtain ⟨rr, hrr, r, hr, hl, ha⟩ := anyActiveRole_eq_true.1 h
  exact anyActiveRole_eq_true.2 ⟨rr, hrr, r, hrows _ r hr, hl, ha⟩

theorem anyRoleRowReferences_mono (hrows : ∀ t, ∀ r ∈ (db'.roots t).rows, r ∈ (db.roots t).rows)
    (h : anyRoleRowReferences env db' baseID = true) :
    anyRoleRowReferences env db baseID = true := by
  obtain ⟨rr, hrr, r, hr, hl⟩ := anyRoleRowReferences_eq_true.1 h
  exact anyRoleRowReferences_eq_true.2 ⟨rr, hrr, r, hrows _ r hr, hl⟩

/-- The two ways the base converges after a hard delete: it is purged with an event on its own
topic, or takes the base step of an archive. -/
theorem convergeBaseAfterHardDelete_cases {purged : Bool}
    (h : convergeBaseAfterHardDelete env db schema src now vetoed = .ok (purged, db')) :
    (purged = true ∧ PurgesBase env schema src vetoed db ∧ ∃ link, schema.sharedBase = some link ∧
      db' = ((link.base.children.foldl (fun db bc => db.deleteChildRows bc.table
        (·.parentID = env.sharedBaseID schema src)) db).deleteBase
          (env.sharedBaseID schema src)).writeOutbox link.base.table .deleted
            (env.sharedBaseID schema src)
            { scalars := [(link.base.idColumn, .str (env.sharedBaseID schema src))]
              ids := { id := env.sharedBaseID schema src, basePurged := true } }) ∨
    (purged = false ∧ ¬PurgesBase env schema src vetoed db ∧
      ∃ st, convergeBaseAfterArchiveWrite env db schema src true now = .ok (st, db')) := by
  cases hlink : schema.sharedBase with
  | none =>
    simp only [convergeBaseAfterHardDelete, hlink] at h
    cases h
    refine .inr ⟨rfl, by simp [PurgesBase, hlink], none, ?_⟩
    simp [convergeBaseAfterArchiveWrite, archiveBaseIfNoActiveRole, baseLifecycleTarget, hlink]
    rfl
  | some link =>
    simp only [convergeBaseAfterHardDelete, hlink] at h
    have hid : env.sharedBaseID schema src = env.baseIDOf link.base src := sharedBaseID_eq hlink
    have hpurge : PurgesBase env schema src vetoed db ↔ link.base.orphanPolicy =
        .deleteWhenUnreferenced ∧ vetoed = false ∧
          anyRoleRowReferences env db (env.baseIDOf link.base src) = false := by
      simp [PurgesBase, hlink, hid]
    rw [hpurge, hid]
    split_ifs at h with hnone hwant
    · cases h
      refine .inr ⟨rfl, fun hp => hnone.1 hp.1, none, ?_⟩
      simp [convergeBaseAfterArchiveWrite, archiveBaseIfNoActiveRole, baseLifecycleTarget, hlink,
        hnone.2]
      rfl
    · simp only [bind_ok] at h
      obtain ⟨_, -, h⟩ := h
      cases vetoed with
      | true =>
        simp only [purgeOrphanBase, if_true, bind_ok, pure_ok, Prod.exists] at h
        obtain ⟨st, db₁, hdb1, h⟩ := h
        cases h
        exact .inr ⟨rfl, fun hp => (nomatch hp.2.1), st, hdb1⟩
      | false =>
        cases h
        exact .inl ⟨rfl, ⟨hwant.1, rfl, by simpa using hwant.2⟩, link, rfl, rfl⟩
    · simp only [bind_ok, pure_ok, Prod.exists] at h
      obtain ⟨_, -, st, db₁, hdb1, h⟩ := h
      cases h
      exact .inr ⟨rfl, fun hp => hwant ⟨hp.1, by simp [hp.2.2]⟩, st, hdb1⟩

/-- A change that keeps the base of an identity in step with its roles. -/
structure InStep (env : Env) (base : BaseSchema) (baseID : String) (vetoed : Bool)
    (db db' : Database) : Prop where
  active : ActiveWithRoles env baseID db → ActiveWithRoles env baseID db'
  present : base.orphanPolicy = .deleteWhenUnreferenced → vetoed = false →
    PresentWithRoles env baseID db → PresentWithRoles env baseID db'
  hasBase : HasBase env baseID db → HasBase env baseID db'

section

variable (hs : schema.sharedBase = some ⟨base, col⟩) (hb : base.archivedAt.isSome)
  (hbases : db₁.bases = db.bases) (hdb' : db'.roots = db₂.roots)
  (hst : db'.baseArchivedAt (env.baseIDOf base src) = db₂.baseArchivedAt (env.baseIDOf base src))
include hs hb hbases hdb' hst

/-- The base after an archive verb has moved the role row of `db` and the base has converged. -/
theorem archive_converges
    (hroots : db₁.roots =
      (db.writeRoot schema.table src.id (archivedRootRow schema src true now)).roots)
    (hconv : convergeBaseAfterArchiveWrite env db₁ schema src true now = .ok (st, db₂)) :
    (ActiveWithRoles env (env.baseIDOf base src) db →
      ActiveWithRoles env (env.baseIDOf base src) db') ∧
    (PresentWithRoles env (env.baseIDOf base src) db →
      PresentWithRoles env (env.baseIDOf base src) db') := by
  have hc1 := (convergeBase_touches hconv).roots
  have hc2 := baseArchivedAt_archiveBase hs hb hconv
  have hbase := baseArchivedAt_of_bases hbases (env.baseIDOf base src)
  have hrows := hdb'.trans hc1
  rw [hbase] at hc2
  constructor
  · intro hact
    rw [activeWithRoles_iff] at hact ⊢
    intro t ht
    rw [hst, hc2, map_eq_some_iff] at ht
    obtain ⟨t0, ht0, rfl⟩ := ht
    rw [anyActiveRole_congr hrows]
    split_ifs with hany
    · -- a row active after the transition was active before it
      refine iff_of_true ((hact t0 ht0).2 ?_) hany
      rw [anyActiveRole_congr hroots, anyActiveRole_eq_true] at hany
      obtain ⟨rr, hrr, r', hr', hlink, hactive⟩ := hany
      obtain ⟨r, hr, hcase⟩ := mem_writeRoot hr'
      refine anyActiveRole_eq_true.2 ⟨rr, hrr, r, hr, ?_, ?_⟩
      · rcases hcase with rfl | rfl
        · exact hlink
        · exact (link_congr rfl rfl rr).symm.trans hlink
      · rcases hcase with rfl | rfl
        · exact hactive
        · simp only [isActive, written, archivedRootRow, if_true,
            isNone_some, Bool.or_false] at hactive
          simp [isActive, hactive]
    · exact iff_of_false (by simp) (by simpa using hany)
  · intro hpre
    rw [presentWithRoles_iff] at hpre ⊢
    rw [hst, hc2, map_eq_none_iff, hpre, anyRoleRowReferences_congr (hrows.trans hroots),
      references_writeRoot (f := archivedRootRow schema src true now) fun _ => rfl]

/-- The base after an unarchive has moved the role row of `db` and the base has converged. -/
theorem unarchive_converges (hreg : schema ∈ env.referencingRoles)
    (hload : ∃ r, db.root schema.table src.id = some r ∧ r.link schema = env.baseIDOf base src)
    (hroots : db₁.roots =
      (db.writeRoot schema.table src.id (archivedRootRow schema src false now)).roots)
    (hconv : convergeBaseAfterArchiveWrite env db₁ schema src false now = .ok (st, db₂)) :
    ActiveWithRoles env (env.baseIDOf base src) db' ∧
    (PresentWithRoles env (env.baseIDOf base src) db →
      PresentWithRoles env (env.baseIDOf base src) db') := by
  have hc1 := (convergeBase_touches hconv).roots
  have hc2 := baseArchivedAt_reactivateBase hs hb hconv
  obtain ⟨r, hr, hlink⟩ := hload
  have hbase := baseArchivedAt_of_bases hbases (env.baseIDOf base src)
  have hrows := (hdb'.trans hc1).trans hroots
  rw [hbase] at hc2
  constructor
  · refine follows_of_active ?_ fun t ht => ?_
    · -- the restored row
      rw [anyActiveRole_congr hrows, anyActiveRole_eq_true]
      refine ⟨schema, hreg, written (archivedRootRow schema src false now) r, ?_, ?_, ?_⟩
      · exact written_mem_writeRoot hr _
      · exact (link_congr rfl rfl schema).trans hlink
      · simp [isActive, written, archivedRootRow]
    · rw [hst, hc2, map_eq_some_iff] at ht
      obtain ⟨-, -, ht⟩ := ht
      exact ht.symm
  · intro hpre
    rw [presentWithRoles_iff] at hpre ⊢
    rw [hst, hc2, map_eq_none_iff, hpre, anyRoleRowReferences_congr hrows,
      references_writeRoot (f := archivedRootRow schema src false now) fun _ => rfl]

/-- The base after a hard delete has removed the role row of `db` and the base has converged. -/
theorem delete_converges {basePurged : Bool}
    (hroots : db₁.roots = (db.deleteRoot schema.table src.id).roots)
    (hconv : convergeBaseAfterHardDelete env db₁ schema src now vetoed = .ok (basePurged, db₂)) :
    InStep env base (env.baseIDOf base src) vetoed db db' := by
  have hbase := baseArchivedAt_of_bases hbases (env.baseIDOf base src)
  have hid : env.sharedBaseID schema src = env.baseIDOf base src := sharedBaseID_eq hs
  have hsub : ∀ t, ∀ r ∈ (db₁.roots t).rows, r ∈ (db.roots t).rows := by
    intro t r hr
    rw [hroots] at hr
    exact mem_deleteRoot hr
  rcases convergeBaseAfterHardDelete_cases hconv with
    ⟨-, ⟨-, -, href⟩, link, -, rfl⟩ | ⟨-, hkeep, st, hconv⟩
  · -- purged: no base row, and no row references it
    have hrows : db'.roots = db₁.roots := hdb'.trans (roots_of_spine (spine_deleteChildren ..) :)
    have hnone : db'.baseArchivedAt (env.baseIDOf base src) = none := by
      rw [hst, hid]
      simp only [Database.baseArchivedAt, Database.writeOutbox, Database.deleteBase, Database.base,
        Table.find_delete_key, if_true, map_none]
    constructor
    · intro _
      refine activeWithRoles_iff.2 fun t ht => ?_
      exact absurd (hnone.symm.trans ht) (by simp)
    · intro _ _ _
      refine presentWithRoles_iff.2 (iff_of_true hnone ?_)
      exact (anyRoleRowReferences_congr hrows _).trans (hid ▸ href)
    · intro _ hrefs
      rw [anyRoleRowReferences_congr hrows, ← hid, href] at hrefs
      cases hrefs
  · have hrows := hdb'.trans (convergeBase_touches hconv).roots
    have hst' := hst.trans (hbase ▸ baseArchivedAt_archiveBase hs hb hconv)
    constructor
    · intro hact
      rw [activeWithRoles_iff] at hact ⊢
      intro t ht
      obtain ⟨t0, ht0, rfl⟩ := map_eq_some_iff.1 (hst'.symm.trans ht)
      rw [anyActiveRole_congr hrows]
      split_ifs with hany
      · exact iff_of_true ((hact t0 ht0).2 (anyActiveRole_mono hsub hany)) hany
      · exact iff_of_false (by simp) (by simpa using hany)
    · intro hpolicy hveto hpre
      have href : anyRoleRowReferences env db₁ (env.baseIDOf base src) = true := by
        simpa [PurgesBase, hs, hid, hpolicy, hveto] using hkeep
      refine present_of_references ((anyRoleRowReferences_congr hrows _).trans href) ?_
      rw [hst', isSome_map]
      exact hpre.isSome (anyRoleRowReferences_mono hsub href)
    · intro hkept href
      rw [anyRoleRowReferences_congr hrows] at href
      rw [hst', isSome_map]
      exact hkept (anyRoleRowReferences_mono hsub href)

end

theorem delete_follows (hs : schema.sharedBase = some ⟨base, col⟩) (hb : base.archivedAt.isSome)
    (h : hardDelete env db schema src now vetoed = .ok db') :
    InStep env base (env.baseIDOf base src) vetoed db db' := by
  obtain ⟨db₁, basePurged, db₂, ids, db3, -, hspine, hconv, hids, rfl⟩ := hardDelete_ok h
  obtain ⟨hf1, -, -, hf2⟩ := (deleteMeta_advances hids).frame
  have hroots : (db₁.deleteRoot schema.table src.id).roots =
      (db.deleteRoot schema.table src.id).roots := by
    simp [deleteRoot, setRoots, roots_of_spine hspine]
  have hbases : (db₁.deleteRoot schema.table src.id).bases = db.bases := (bases_of_spine hspine :)
  exact delete_converges hs hb hbases hf1 (hf2 _) hroots hconv

/-- **Step.** Each verb but an update keeps the base of its identity in step with the roles. -/
theorem RoleWrite.commit_follows [PersistentItem α] {w : RoleWrite α}
    (hw : w.OnIdentity env base baseID) (hb : base.archivedAt.isSome)
    (hrow : w.ofRow env db = true) (hverb : w.verb ≠ .update) (h : w.commit env db = .ok db') :
    InStep env base baseID w.verb.vetoed db db' := by
  obtain ⟨hreg, ⟨col, hs⟩, rfl⟩ := hw
  obtain ⟨schema, verb, src, now⟩ := w
  simp only at hreg hs
  cases verb with
  | insert =>
    simp only [commit, insertWrite, hs] at h
    obtain ⟨hact, hpre⟩ := insertWithBase_follows hreg hs hb h
    exact ⟨fun _ => hact, fun _ _ _ => hpre, fun _ => hpre.isSome⟩
  | update => exact absurd rfl hverb
  | archive =>
    obtain ⟨db₁, st, db₂, hroots, hbases, hconv, hdb', hst⟩ := archiveWrite_frame h
    obtain ⟨hact, hpre⟩ := archive_converges hs hb hbases hdb' hst hroots hconv
    exact ⟨hact, fun _ _ => hpre, fun hbase => archiveWrite_hasBase hbase h⟩
  | unarchive =>
    obtain ⟨_, _, _, r, _, _, _, _, -, -, -, -, hr, -⟩ := archiveWrite_ok h
    have hlink : r.link schema = env.baseIDOf base src := by simpa [ofRow, hr, hs] using hrow
    obtain ⟨db₁, st, db₂, hroots, hbases, hconv, hdb', hst⟩ := archiveWrite_frame h
    obtain ⟨hact, hpre⟩ :=
      unarchive_converges hs hb hbases hdb' hst hreg ⟨r, hr, hlink⟩ hroots hconv
    exact ⟨fun _ => hact, fun _ _ => hpre, fun hbase => archiveWrite_hasBase hbase h⟩
  | delete vetoed => exact delete_follows hs hb h

/-- **Step.** An update keeps the base in step with the roles exactly if one of them is active. -/
theorem RoleWrite.commit_update_follows [PersistentItem α] {w : RoleWrite α}
    (hw : w.OnIdentity env base baseID) (hb : base.archivedAt.isSome)
    (hrow : w.ofRow env db = true) (hverb : w.verb = .update) (hbase : HasBase env baseID db)
    (h : w.commit env db = .ok db') :
    (ActiveWithRoles env baseID db' ↔ anyActiveRole env db baseID = true) ∧
      PresentWithRoles env baseID db' := by
  obtain ⟨hreg, ⟨col, hs⟩, rfl⟩ := hw
  obtain ⟨schema, verb, src, now⟩ := w
  simp only at hreg hs hverb
  subst hverb
  simp only [commit, updateWrite, hs] at h
  obtain ⟨_, r, _, _, _, _, _, _, -, hr, -⟩ := updateWithBase_ok h
  have hlink : r.link schema = env.baseIDOf base src := by simpa [ofRow, hr, hs] using hrow
  exact updateWithBase_follows hs hb (anyRoleRowReferences_eq_true.2
    ⟨schema, hreg, r, (Table.find_eq_some_iff.1 hr).1, hlink⟩) hbase h

end

/-! ### Runs -/

/-- **The base follows its roles.** From a store in which an identity has neither a base row nor a
role row, a run of its roles' writes keeps the base active exactly while one of its roles is,
exactly if every update that commits finds an active role; and it keeps a base deleted when
unreferenced present exactly while it has a role. -/
theorem base_follows_roles [PersistentItem α] (env : Env) (base : BaseSchema) (baseID : String)
    (db₀ : Database) (ops : List (RoleWrite α)) (hb : base.archivedAt.isSome)
    (hops : ∀ w ∈ ops, w.OnIdentity env base baseID) (hbase : db₀.base baseID = none)
    (hroles : anyRoleRowReferences env db₀ baseID = false)
    (hrun : ((serialMachine env).run db₀ ops).isSome) :
    ((serialMachine env).Always (ActiveWithRoles env baseID) db₀ ops ↔
      (serialMachine env).Along (UpdatesActive env baseID) db₀ ops) ∧
    (base.orphanPolicy = .deleteWhenUnreferenced → (∀ w ∈ ops, w.verb.vetoed = false) →
      (serialMachine env).Always (PresentWithRoles env baseID) db₀ ops) := by
  constructor
  · refine Machine.always_iff_along_of_run (K := HasBase env baseID) (fun w hw db db' hK hI h => ?_)
      (fun href => absurd href (by simp [hroles]))
      (fun b h => absurd (hbase.symm.trans h) (by simp)) hrun
    obtain ⟨hrow, rfl⟩ := ite_some_none_eq_some.1 h
    cases hc : w.commit env db with
    | error _ =>
      refine ⟨hK, iff_of_true hI fun _ hok => ?_⟩
      rw [hc] at hok; cases hok
    | ok db₁ =>
      by_cases hverb : w.verb = .update
      · obtain ⟨hact, hpre⟩ := RoleWrite.commit_update_follows (hops w hw) hb hrow hverb hK hc
        exact ⟨hpre.isSome, hact.trans ⟨fun ha _ _ => ha, fun h => h hverb (by rw [hc]; rfl)⟩⟩
      · have hin := RoleWrite.commit_follows (hops w hw) hb hrow hverb hc
        exact ⟨hin.hasBase hK, iff_of_true (hin.active hI) fun h => absurd h hverb⟩
  · intro hpolicy hveto
    refine Machine.always_of_invariant (fun w hw db db' hI h => ?_) (iff_of_true hbase hroles)
    obtain ⟨hrow, rfl⟩ := ite_some_none_eq_some.1 h
    cases hc : w.commit env db with
    | error _ => exact hI
    | ok db₁ =>
      by_cases hverb : w.verb = .update
      · exact (RoleWrite.commit_update_follows (hops w hw) hb hrow hverb hI.isSome hc).2
      · have hin := RoleWrite.commit_follows (hops w hw) hb hrow hverb hc
        exact hin.present hpolicy (hveto w hw) hI

/-- A person, shared by the roles below and gone with the last of them. -/
def person : BaseSchema where
  table := "person"
  idColumn := "id"
  fields := [{ column := "tax_id" }, { column := "name" }]
  naturalIDColumn := "tax_id"
  revisionColumn := "revision"
  archivedAt := some "archived_at"
  orphanPolicy := .deleteWhenUnreferenced

def student : SchemaDecl where
  table := "student"
  idColumn := "id"
  fields := [{ column := "course" }]
  revisionColumn := "revision"
  archivedAt := some "archived_at"
  sharedBase := some ⟨person, "person_id"⟩

def teacher : SchemaDecl where
  table := "teacher"
  idColumn := "id"
  fields := []
  revisionColumn := "revision"
  sharedBase := some ⟨person, "id"⟩

def personEnv : Env where
  newWriteID n := if n = 0 then "s0" else "s1"
  deterministicBaseID nk := "person-" ++ nk
  referencingRoles := [student, teacher]

/-- A role of the person with tax id 7. -/
def roleOf7 (id : String) (revision : ℕ) (name : String) : Entity Address where
  id
  values c := .str (if c = "tax_id" then "7" else if c = "name" then name else "")
  revision
  actionName := "GetUpsertable"

theorem student_registered : student ∈ personEnv.referencingRoles := by simp [personEnv]

theorem teacher_registered : teacher ∈ personEnv.referencingRoles := by simp [personEnv]

theorem roleOf7_onIdentity {schema : SchemaDecl} (h : schema ∈ personEnv.referencingRoles)
    (verb : RoleVerb) (id : String) (revision : ℕ) (name : String) (now : Instant) :
    RoleWrite.OnIdentity personEnv person "person-7"
      ⟨schema, verb, roleOf7 id revision name, now⟩ := by
  refine ⟨h, ?_, rfl⟩
  simp only [personEnv, List.mem_cons, List.not_mem_nil, or_false] at h
  rcases h with rfl | rfl
  · exact ⟨_, rfl⟩
  · exact ⟨_, rfl⟩

def personRun : List (RoleWrite Address) :=
  [⟨student, .insert, roleOf7 "" 0 "Ann", 1⟩, ⟨student, .archive, roleOf7 "s0" 1 "Ann", 2⟩,
    ⟨teacher, .insert, roleOf7 "" 0 "Ann", 3⟩, ⟨teacher, .update, roleOf7 "person-7" 1 "Anna", 4⟩,
    ⟨student, .unarchive, roleOf7 "s0" 2 "Anna", 5⟩,
    ⟨teacher, .delete false, roleOf7 "person-7" 2 "Anna", 6⟩,
    ⟨student, .delete false, roleOf7 "s0" 3 "Anna", 7⟩]

theorem personRun_onIdentity : ∀ w ∈ personRun, w.OnIdentity personEnv person "person-7" := by
  simp [personRun, roleOf7_onIdentity, student_registered, teacher_registered]

theorem base_follows_student_and_teacher :
    ((serialMachine personEnv).run {} personRun).map (·.base "person-7") = some none ∧
    (serialMachine personEnv).Always (ActiveWithRoles personEnv "person-7") {} personRun ∧
    (serialMachine personEnv).Always (PresentWithRoles personEnv "person-7") {} personRun := by
  obtain ⟨hact, hpre⟩ := base_follows_roles personEnv person "person-7" {} personRun rfl
    personRun_onIdentity rfl rfl (by decide)
  exact ⟨by decide, hact.2 (by decide), hpre rfl (by decide)⟩

/-- The only student row of a person is archived, loaded with the archived rows, and updated. -/
def archivedUpdate : List (RoleWrite Address) :=
  [⟨student, .insert, roleOf7 "" 0 "Ann", 1⟩, ⟨student, .archive, roleOf7 "s0" 1 "Ann", 2⟩,
    ⟨student, .update, roleOf7 "s0" 2 "Anna", 3⟩]

/-- The update of `archivedUpdate` restores the person, who has no active role. -/
theorem archived_update_restores_base :
    (∀ w ∈ archivedUpdate, w.OnIdentity personEnv person "person-7") ∧
    ((serialMachine personEnv).run {} archivedUpdate).map (fun db =>
      ((db.base "person-7").map (·.archivedAt), anyActiveRole personEnv db "person-7")) =
        some (some none, false) ∧
    ¬(serialMachine personEnv).Always (ActiveWithRoles personEnv "person-7") {} archivedUpdate :=
  ⟨by simp [archivedUpdate, roleOf7_onIdentity, student_registered], by decide, by decide⟩

end Omnicore.Write
