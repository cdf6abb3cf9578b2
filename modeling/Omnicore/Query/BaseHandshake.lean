import Omnicore.Query.Scopes
import Omnicore.Query.SharedBaseView
import Omnicore.Query.SharedElements
import Omnicore.Query.Watermarks

/-!
# The base-revision handshake

The event of one role of an identity is pushed to the documents of the others, which a probe finds
by their link to the base; a document that is being born may be missed.  So the revision of the base
is recorded before the probe, and the writer of a new document reads the record after its write: a
later revision makes it compose the document from the rows.  Any number of fan-outs interleave with
the processing of one insert, each store operation being a step of its own.

## Main definitions

* `baseHandshakeMachine` : fan-outs of one identity and the insert of one of its roles.
* `ShowsRole` : the composer finds the row of the role.

## Main results

* `BaseHandshakeInv.step` : a revision that was pushed has reached the document, or the insert has
  not looked at the record yet.
* `handshake_complete` : in the end the document is at every revision that was pushed.
-/

namespace Omnicore.Query

open Omnicore.Core Write List AssocMap Option Function SchemaDecl

/-- Where the fan-out of an event is. -/
inductive FanOutPhase where
  | waiting
  | stamped
  | probed (found : Bool)
  | done
  deriving DecidableEq

/-- Where the processing of the insert is. -/
inductive InsertPhase where
  | waiting
  | written
  /-- A later revision of the base is on record. -/
  | behind
  | composed (doc : Doc)
  | done
  deriving DecidableEq

/-- The document of the role, the revision on record, and how far the writers are. -/
structure BaseHandshakeState (ι : Type) where
  doc : Option Doc := none
  stampedBaseRevision : ℕ := 0
  fanOut : ι → FanOutPhase := fun _ => .waiting
  insert : InsertPhase := .waiting

inductive BaseHandshakeAction (ι : Type) where
  | stamp (i : ι)
  | probe (i : ι)
  | apply (i : ι)
  | write
  | pull
  /-- Compose the document from the rows of a moment. -/
  | compose (rows : Database)
  | repair

/-- The document references the identity. -/
def linkedTo (schema : TableSchema) (baseID : String) (d : Doc) : Bool :=
  schema.sharedBase.any fun link => d.get link.parentIDColumn = some (.str baseID)

/-- The rows hold every commit whose revision is on record: the base of the role's row is not
older. -/
def HoldsStamped (schema : TableSchema) (id baseID : String) (stamped : ℕ) (rows : Database) :
    Prop :=
  ∀ r ∈ rows.root schema.table id, r.link schema.toSchemaDecl = baseID ∧
    ∃ b ∈ rows.base baseID, stamped ≤ b.revision

instance (schema : TableSchema) (id baseID : String) (stamped : ℕ) (rows : Database) :
    Decidable (HoldsStamped schema id baseID stamped rows) :=
  inferInstanceAs (Decidable (∀ r ∈ _, _))

variable {ι : Type} [DecidableEq ι]

/-- The fan-outs of some events of an identity, and the processing of the insert of one role. -/
def baseHandshakeMachine (view : EntityView) (inserted : OutboxRow) (events : ι → OutboxRow) :
    Machine (BaseHandshakeState ι) (BaseHandshakeAction ι) where
  step s a :=
    let ids := inserted.payload.ids
    let moveTo (s : BaseHandshakeState ι) (i : ι) (p : FanOutPhase) : BaseHandshakeState ι :=
      { s with fanOut := update s.fanOut i p }
    match a with
    | .stamp i =>
      if s.fanOut i = .waiting then
        some (moveTo { s with
          stampedBaseRevision :=
            max s.stampedBaseRevision (events i).payload.ids.baseRevision } i .stamped)
      else none
    | .probe i =>
      if s.fanOut i = .stamped then
        -- an event without columns of the base looks for no documents
        if buildFanOutStages view.schema.toSchemaDecl (events i).payload = [] then
          some (moveTo s i .done)
        else some (moveTo s i (.probed (s.doc.any (linkedTo view.schema ids.baseID))))
      else none
    | .apply i =>
      match s.fanOut i with
      | .probed false => some (moveTo s i .done)
      | .probed true =>
        match applyProjection s.doc inserted.aggregateID
            (buildFanOutStages view.schema.toSchemaDecl (events i).payload) false with
        | .ok doc => some (moveTo { s with doc } i .done)
        | .error _ => none
      | _ => none
    | .write =>
      if s.insert = .waiting then
        match applyProjection s.doc inserted.aggregateID
            (buildProjectionStages view.schema.toSchemaDecl inserted.payload) true with
        | .ok doc => some { s with doc, insert := .written }
        | .error _ => none
      else none
    | .pull =>
      if s.insert = .written then
        some { s with
          insert := if s.stampedBaseRevision ≤ ids.baseRevision then .done else .behind }
      else none
    | .compose rows =>
      if s.insert = .behind ∧
          HoldsStamped view.schema inserted.aggregateID ids.baseID s.stampedBaseRevision rows then
        match compose view.toView rows inserted.aggregateID with
        | some doc => some { s with insert := .composed doc }
        | none => some { s with insert := .done }
      else none
    | .repair =>
      match s.insert with
      | .composed doc =>
        match applyConsultUpsert view.toView s.doc inserted.aggregateID doc with
        | .ok doc => some { s with doc, insert := .done }
        | .error _ => none
      | _ => none

/-- Every fan-out that was begun is done, and so is the insert. -/
def BaseHandshakeState.Finished (s : BaseHandshakeState ι) : Prop :=
  s.insert = .done ∧ ∀ i, s.fanOut i = .waiting ∨ s.fanOut i = .done

/-- The composer finds the row of the role. -/
def ShowsRole (view : EntityView) (id : String) : BaseHandshakeAction ι → Prop
  | .compose rows => (compose view.toView rows id).isSome
  | _ => True

/-! ### Pipelines that reach a revision -/

section

variable {schema : TableSchema} {ev : Payload} {d d' : Doc}

theorem baseStages_reaches {set : SetStage} {ids : OutboxMeta} (hpub : CarriesBase set ids)
    (hd : Watermarked d docBaseRevisionField) (h : runStages d (baseStages set ids) = .ok d') :
    AtLeast (d'.get docBaseRevisionField) ids.baseRevision := by
  rw [baseStages, if_pos hpub] at h
  have he := SetStage.eval_of_apply (runStages_singleton h) (get_set_self ..)
  rw [eval_advancedWatermark (Int.natCast_nonneg _) hd] at he
  exact ⟨_, (Except.ok.inj he).symm, le_max_right ..⟩

theorem buildFanOutStages_ne_nil (h : CarriesBase (baseSet schema ev) ev.ids) :
    buildFanOutStages schema ev ≠ [] := by
  rw [buildFanOutStages, baseStages, if_pos (carriesBase_fanOutSet.2 h)]
  simp

/-- The shared part of an event: the watermark of the base reaches its revision, and the own columns
stay. -/
theorem buildFanOutStages_reaches (h : runStages d (buildFanOutStages schema ev) =
      .ok d') :
    Advances (d.get docBaseRevisionField) (d'.get docBaseRevisionField) ∧
      (CarriesBase (baseSet schema ev) ev.ids → Watermarked d docBaseRevisionField →
        AtLeast (d'.get docBaseRevisionField) ev.ids.baseRevision) ∧
      ∀ k ∈ schema.ownColumns, d'.get k = d.get k := by
  have hbaseKey := baseRevision_not_key schema
  obtain ⟨d1, h1, h2⟩ := runStages_append_ok h
  obtain ⟨hadv, -, hframe⟩ := baseStages_ok h1
  have hmark : d'.get docBaseRevisionField = d1.get docBaseRevisionField :=
    runStages_get h2 (get_childStages hbaseKey.2.2)
  refine ⟨hmark ▸ hadv, fun hpub hd => ?_, fun k hk => ?_⟩
  · rw [hmark]
    exact baseStages_reaches (carriesBase_fanOutSet.2 hpub) hd h1
  · obtain ⟨hbase, hseg⟩ := schema.ownColumn_disjoint hk
    rw [runStages_get h2 (get_childStages hseg), hframe k ?_ fun he => hbaseKey.1 (he ▸ hk)]
    rw [← get_eq_none_iff, get_fanOutSet, get_baseSet, if_neg hbase]

/-- The event of the document's own aggregate: the watermark of the base reaches its revision, and a
column is set unless the document is past the event. -/
theorem buildProjectionStages_reaches (hev : WellFormed schema ev)
    (h : runStages d (buildProjectionStages schema ev) = .ok d') :
    Advances (d.get docBaseRevisionField) (d'.get docBaseRevisionField) ∧
      (CarriesBase (baseSet schema ev) ev.ids → Watermarked d docBaseRevisionField →
        AtLeast (d'.get docBaseRevisionField) ev.ids.baseRevision) ∧
      ∀ k v, (ownSet schema ev).get k = some (.lit v) →
        d'.get k = some v ∨
          (Past (d.get docRevisionField) ev.ids.revision ∧ d'.get k = d.get k) := by
  have hrevKey := revision_not_key schema
  have hbaseKey := baseRevision_not_key schema
  have hsetOwn := setsColumns_ownSet hev
  have hsetBase := setsColumns_baseSet schema ev
  obtain ⟨d1, d2, d3, d4, -, -, h3, h4, -, hrev3, hframe4, hseg⟩ := buildProjectionStages_ok hev h
  obtain ⟨hadv3, -, hframe3⟩ := baseStages_ok h3
  obtain ⟨hbase2, hbase5⟩ := hseg _ hbaseKey.2.2
  have hmark : d'.get docBaseRevisionField = d3.get docBaseRevisionField := by
    rw [hbase5, hframe4 _ (hsetOwn.not_mem_keys hbaseKey.1) (by decide)]
  rw [hbase2] at hadv3
  refine ⟨hmark ▸ hadv3, fun hpub hd => ?_, fun k v hk => ?_⟩
  · rw [hmark]
    refine baseStages_reaches hpub ?_ h3
    rw [Watermarked, hbase2]
    exact hd
  · have hcol := (hsetOwn _ (mem_of_get hk)).1
    have hdisj := schema.ownColumn_disjoint hcol
    have hne : k ≠ docRevisionField := fun he => hrevKey.1 (he ▸ hcol)
    obtain ⟨hk2, hk5⟩ := hseg k hdisj.2
    have hk3 : d3.get k = d.get k := by
      rw [hframe3 k (hsetBase.not_mem_keys hdisj.1) fun he => hbaseKey.1 (he ▸ hcol), hk2]
    rw [hk5]
    have he := SetStage.eval_of_apply h4 ((get_guardedSetStage hne).trans (by rw [hk]; rfl))
    rcases below_or_past (d3.get docRevisionField) ev.ids.revision with hb | ha | hp
    · rw [Expr.eval_cond (eval_appliesAt_below (Int.natCast_nonneg _) hb), if_pos rfl] at he
      exact .inl (Except.ok.inj he).symm
    · rw [Expr.eval_cond (eval_appliesAt_at ha), if_pos rfl] at he
      exact .inl (Except.ok.inj he).symm
    · rw [guardedSetStage_past hp h4, hk3]
      exact .inr ⟨hrev3 ▸ hp, rfl⟩

end

/-! ### The document of a role, composed -/

/-- A role of a shared base: the columns of the base row are distinct, and none that the system
manages is the link. -/
structure LinkedRole (schema : TableSchema) (link : SharedBaseLink) : Prop where
  shared : schema.sharedBase = some link
  columns_nodup : (baseColumns link.base).Nodup
  link_ne : link.parentIDColumn ∉ link.base.archivedAt.toList ++ link.base.createdAt.toList ++
    link.base.updatedAt.toList

/-- The composition of a role of an identity, read when the base was at a revision or past it. -/
structure ComposedRole (schema : TableSchema) (link : SharedBaseLink) (baseID : String)
    (stamped : ℕ) (doc : Doc) : Prop where
  revision : ∃ n : ℕ, doc.get docBaseRevisionField = some (.int n) ∧ stamped ≤ n
  columns : ∀ k ∈ columns link.base.fields, (doc.get k).isSome
  link : doc.get link.parentIDColumn = some (.str baseID)

section

variable {schema : TableSchema} {link : SharedBaseLink}

theorem LinkedRole.link_mem (h : LinkedRole schema link) :
    link.parentIDColumn ∈ schema.ownColumns := by
  rw [ownColumns, h.shared]
  by_cases he : link.parentIDColumn = schema.idColumn
  · rw [he]
    simp
  · simp [he]

variable {baseID k id : String} {d doc : Doc}

theorem LinkedRole.linkedTo_iff (h : LinkedRole schema link) :
    linkedTo schema baseID d = true ↔ d.get link.parentIDColumn = some (.str baseID) := by
  simp [linkedTo, h.shared]

theorem mem_keys_shown {b : BaseRow} :
    k ∈ keys ((baseRowDoc link.base b).filter
        (·.1 ∉ sharedBaseSkipSet link.base schema)) ↔
      k ∈ baseColumns link.base ∧ k ∉ sharedBaseSkipSet link.base schema := by
  rw [keys_filter_baseRowDoc, mem_filter, decide_eq_true_eq]

section

variable (h : LinkedRole schema link)
include h

theorem LinkedRole.column_shown (hk : k ∈ columns link.base.fields) :
    k ∈ baseColumns link.base ∧ k ∉ sharedBaseSkipSet link.base schema := by
  have hnodup := h.columns_nodup
  simp only [baseColumns, cons_append, append_assoc, nodup_cons, nodup_append, mem_append] at hnodup
  obtain ⟨hid, -, -, hmanaged⟩ := hnodup
  refine ⟨by simp [baseColumns, hk], fun hskip => ?_⟩
  have hmem : k = link.base.idColumn ∨ k ∈ link.base.archivedAt.toList ∨
      k ∈ link.base.createdAt.toList ∨ k ∈ link.base.updatedAt.toList := by
    simp only [sharedBaseSkipSet, cons_append, append_assoc, mem_cons,
      mem_append, mem_ite_nil_right] at hskip
    tauto
  rcases hmem with rfl | hmem
  · exact hid (.inl hk)
  · exact hmanaged k hk k hmem rfl

theorem LinkedRole.link_not_shown :
    ¬ (link.parentIDColumn ∈ baseColumns link.base ∧
      link.parentIDColumn ∉ sharedBaseSkipSet link.base schema) := by
  rintro ⟨hmem, hskip⟩
  have hne := h.link_ne
  simp only [baseColumns, cons_append, append_assoc, mem_cons, mem_append] at hmem hne
  rcases hmem with he | hcol | hmem
  · exact hskip (he ▸ mem_cons_self)
  · refine (schema.ownColumn_disjoint h.link_mem).1 ?_
    rw [sharedBaseBusinessColumns, h.shared]
    exact hcol
  · exact hne hmem

theorem get_rootRowDoc_link (r : RootRow) :
    (rootRowDoc schema r).get link.parentIDColumn = some (.str (r.link schema)) := by
  refine get_of_mem (keys_rootRowDoc_nodup schema r)
    (p := (link.parentIDColumn, .str (r.link schema))) ?_
  by_cases he : link.parentIDColumn = schema.idColumn <;>
    simp [rootRowDoc, RootRow.link, sharedPK, h.shared, he]

/-- **The composition of a role**: the revision of the base, its columns and the link. -/
theorem compose_role {deleteOnArchive : Bool} {db : Database} {r : RootRow} {b : BaseRow}
    (hr : db.root schema.table id = some r) (hb : db.base (r.link schema) = some b)
    (hdoc : compose ⟨.entity schema, deleteOnArchive⟩ db id = some doc) :
    ComposedRole schema link (r.link schema) b.revision doc := by
  have hsegs : ∀ k, k ∉ schema.allChildren.map ChildSchema.segment →
      doc.get k = (mergeSharedBase db schema r (rootRowDoc schema r)).get k := fun k hk => by
    rw [allChildren, map_append, mem_append, not_or] at hk
    simp only [compose, hr, map_eq_some_iff] at hdoc
    obtain ⟨r', hr', rfl⟩ := hdoc
    cases (filter_eq_some_iff.1 hr').1
    rw [mergeChildren, get_foldl_set _ _ _ _ hk.1, mergeChildren, get_foldl_set _ _ _ _ hk.2]
  have hmerge : mergeSharedBase db schema r (rootRowDoc schema r) =
      setAll (rootRowDoc schema r) (((baseRowDoc link.base b).filter
        (·.1 ∉ sharedBaseSkipSet link.base schema)) ++
        [(docBaseRevisionField, .int b.revision)]) := by
    simp [mergeSharedBase, h.shared, hb]
  have hbaseKey := baseRevision_not_key schema
  refine ⟨⟨b.revision, ?_, le_rfl⟩, fun k hk => ?_, ?_⟩
  · rw [hsegs _ hbaseKey.2.2, hmerge, setAll, foldl_append]
    exact get_set_self ..
  · have hcol : k ∈ schema.sharedBaseBusinessColumns := by
      rw [sharedBaseBusinessColumns, h.shared]
      exact hk
    rw [hsegs k (schema.baseColumn_not_segment hcol), hmerge,
      isSome_iff_ne_none, Ne, get_eq_none_iff, not_not]
    refine mem_keys_setAll.2 (.inr ?_)
    rw [AssocMap.keys_append]
    exact mem_append_left _ (mem_keys_shown.2 (h.column_shown hk))
  · have hown := h.link_mem
    rw [hsegs _ (schema.ownColumn_disjoint hown).2, hmerge, get_setAll_of_not_mem,
      get_rootRowDoc_link h]
    rw [AssocMap.keys_append, mem_append, mem_keys_shown]
    rintro (hmem | hmem)
    · exact h.link_not_shown hmem
    · have he : link.parentIDColumn = docBaseRevisionField := mem_singleton.1 hmem
      exact hbaseKey.1 (he ▸ hown)

end

/-! ### The repair -/

theorem isData_documentKey (hk : k ∈ schema.documentKeys) : isData k = true := by
  have hnot := schema.keys_not_reserved k hk
  simp only [reservedKeys, mem_cons, not_or] at hnot
  simp [isData, docRevisionField, docBaseRevisionField, hnot.1, hnot.2.1, hnot.2.2.1]

theorem LinkedRole.isData_link (h : LinkedRole schema link) : isData link.parentIDColumn = true :=
  isData_documentKey (mem_append_left _ (mem_append_left _ h.link_mem))

theorem LinkedRole.link_not_baseScope (h : LinkedRole schema link) :
    link.parentIDColumn ∉ baseScope (.entity schema) := fun hmem =>
  have hdisj := schema.ownColumn_disjoint h.link_mem
  (mem_append.1 hmem).elim hdisj.1 fun hseg => hdisj.2 (baseSegment_mem hseg)

theorem LinkedRole.isScalar_link (h : LinkedRole schema link) :
    (ownShape (.entity schema)).IsScalar link.parentIDColumn := by
  refine ⟨(get_eq_none_iff ..).2 fun hmem => ?_, nofun⟩
  have hkeys : keys (arraySegs schema.children) = schema.children.map ChildSchema.segment := by
    simp [AssocMap.keys, arraySegs, comp_def]
  refine (schema.ownColumn_disjoint h.link_mem).2 ?_
  rw [allChildren, map_append]
  exact mem_append_left _ (hkeys ▸ hmem)

section

variable {view : EntityView} (hrole : LinkedRole view.schema link)
  (hcols : columns link.base.fields ≠ [])
include hrole hcols

theorem consult_stages {stamped : ℕ} {doc' : Option Doc}
    (hdoc : ComposedRole view.schema link baseID stamped doc)
    (h : applyConsultUpsert view.toView (some d) id doc = .ok doc') :
    ∃ (own base : Doc) (d1 d' : Doc), doc' = some d' ∧
      (∀ j, own.get j = if j ∉ baseScope view.toView.root ∧ isData j = true
        then doc.get j else none) ∧
      (∀ j, base.get j = if j ∈ baseScope view.toView.root ∧ isData j = true
        then doc.get j else none) ∧
      (scopeStage docRevisionField own (watermarkOf (doc.get docRevisionField))
        (ownShape view.toView.root)).apply d = .ok d1 ∧
      (scopeStage docBaseRevisionField base (watermarkOf (doc.get docBaseRevisionField))
        (baseShape view.toView.root)).apply d1 = .ok d' := by
  have hown := get_filter_dataFields (fun j => decide (j ∉ baseScope view.toView.root)) doc
  have hbase := get_filter_dataFields (fun j => decide (j ∈ baseScope view.toView.root)) doc
  simp only [decide_eq_true_eq] at hown hbase
  obtain ⟨k, hk⟩ := exists_mem_of_ne_nil _ hcols
  have hkBase : k ∈ view.schema.sharedBaseBusinessColumns := by
    rw [sharedBaseBusinessColumns, hrole.shared]
    exact hk
  have hkData : isData k = true := isData_documentKey
    (mem_append_left _ (mem_append_right _ hkBase))
  -- the link is in the own scope, a column of the base in the other
  have hbaseNe : ¬ ((dataFields doc).filter fun p => p.1 ∈ baseScope view.toView.root) = [] :=
    fun hnil => by
      have hnone := eq_nil_iff_get.1 hnil k
      rw [hbase, if_pos ⟨mem_append_left _ hkBase, hkData⟩] at hnone
      exact absurd (hdoc.columns k hk) (by rw [hnone]; simp)
  have hownNe : ¬ ((dataFields doc).filter fun p => p.1 ∉ baseScope view.toView.root) = [] :=
    fun hnil => by
      have hnone := eq_nil_iff_get.1 hnil link.parentIDColumn
      rw [hown, if_pos ⟨hrole.link_not_baseScope, hrole.isData_link⟩, hdoc.link] at hnone
      cases hnone
  rw [applyConsultUpsert, consultGuardedStages, if_neg hownNe, if_neg hbaseNe,
    if_neg (by simp)] at h
  obtain ⟨-, d', rfl, hrun⟩ := (applyProjection_ok h).resolve_left (by simp)
  obtain ⟨d1, h1, h2⟩ := runStages_append_ok hrun
  exact ⟨_, _, d1, d', rfl, hown, hbase, runStages_singleton h1, runStages_singleton h2⟩

/-- **The repair** brings the watermark of the base to the revision composed, and keeps the link. -/
theorem consult_reaches {stamped : ℕ} {doc' : Option Doc} (hpos : 0 < stamped)
    (hdoc : ComposedRole view.schema link baseID stamped doc)
    (hd : Watermarked d docBaseRevisionField) (hlink : linkedTo view.schema baseID d = true)
    (h : applyConsultUpsert view.toView (some d) id doc = .ok doc') :
    ∃ d', doc' = some d' ∧ Advances (d.get docBaseRevisionField) (d'.get docBaseRevisionField) ∧
      AtLeast (d'.get docBaseRevisionField) stamped ∧ linkedTo view.schema baseID d' = true := by
  obtain ⟨own, base, d1, d', rfl, hown, hbase, h1, h2⟩ := consult_stages hrole hcols hdoc h
  obtain ⟨n, hn, hle⟩ := hdoc.revision
  have hrev : (0 : ℤ) < watermarkOf (doc.get docBaseRevisionField) := by
    rw [hn, watermarkOf]
    omega
  have hmark : d1.get docBaseRevisionField = d.get docBaseRevisionField := by
    refine scopeStage_get_of_not_mem h1 ?_ (by decide)
    rw [hown, if_neg fun hd => absurd hd.2 (by decide)]
  have hmark1 : Watermarked d1 docBaseRevisionField := by
    rw [Watermarked, hmark]
    exact hd
  have hbaseMark : base.get docBaseRevisionField = none := by
    rw [hbase, if_neg fun hd => absurd hd.2 (by decide)]
  have hreached := scopeStage_watermark hrev hmark1 h2 hbaseMark
  refine ⟨d', rfl, hmark ▸ scopeStage_advances h2 hrev hbaseMark, ⟨_, hreached, ?_⟩, ?_⟩
  · rw [hn, watermarkOf]
    omega
  · rw [hrole.linkedTo_iff] at hlink ⊢
    have hframe : d'.get link.parentIDColumn = d1.get link.parentIDColumn := by
      refine scopeStage_frame h2 hrev ?_ fun he => ?_
      · rw [hbase, if_neg fun hd => hrole.link_not_baseScope hd.1]
      · exact absurd hrole.isData_link (by rw [he]; decide)
    have hval : own.get link.parentIDColumn = some (.str baseID) := by
      rw [hown, if_pos ⟨hrole.link_not_baseScope, hrole.isData_link⟩, hdoc.link]
    rw [hframe]
    rcases scopeStage_column h1 hrole.isScalar_link hval with he | he
    · exact he
    · exact he.trans hlink

end

end

/-! ### The protocol -/

/-- The insert of a role tells the columns of its base and the link to it. -/
structure TellsRole (schema : TableSchema) (link : SharedBaseLink) (ev : OutboxRow) : Prop where
  wellFormed : WellFormed schema ev.payload
  carries : Carries schema ev
  link : (ownSet schema.toSchemaDecl ev.payload).get link.parentIDColumn =
    some (.lit (.str ev.payload.ids.baseID))

/-- A revision of the base has reached the document, the composition that is about to be written, or
the record the insert has yet to act on. -/
def Reached (s : BaseHandshakeState ι) (rev : ℤ) : Prop :=
  match s.insert with
  | .waiting | .written | .behind => True
  | .composed doc => AtLeast (doc.get docBaseRevisionField) rev ∨
      ∃ d ∈ s.doc, AtLeast (d.get docBaseRevisionField) rev
  | .done => ∃ d ∈ s.doc, AtLeast (d.get docBaseRevisionField) rev

/-- What holds between the steps of the handshake. -/
structure BaseHandshakeInv (view : EntityView) (link : SharedBaseLink) (inserted : OutboxRow)
    (events : ι → OutboxRow) (s : BaseHandshakeState ι) : Prop where
  marked : ∀ d ∈ s.doc, Watermarked d docBaseRevisionField ∧
    linkedTo view.schema inserted.payload.ids.baseID d = true
  born : s.insert ≠ .waiting → ∃ d ∈ s.doc, AtLeast (d.get docBaseRevisionField) (baseRev inserted)
  stamped : ∀ i, s.fanOut i ≠ .waiting → (events i).payload.ids.baseRevision ≤ s.stampedBaseRevision
  found : ∀ i, s.fanOut i = .probed true → s.doc.isSome
  behind : s.insert = .behind → 0 < s.stampedBaseRevision
  composed : ∀ doc, s.insert = .composed doc → ∃ n, 0 < n ∧
    doc.get docBaseRevisionField = some (.int (n : ℕ)) ∧
    ComposedRole view.schema link inserted.payload.ids.baseID n doc
  pushed : ∀ i, s.fanOut i = .done ∨ s.fanOut i = .probed false → Carries view.schema (events i) →
    Reached s (baseRev (events i))

section

variable {view : EntityView} {link : SharedBaseLink} {inserted : OutboxRow} {events : ι → OutboxRow}
  {s s' : BaseHandshakeState ι} {a : BaseHandshakeAction ι}

omit [DecidableEq ι]

theorem Reached.of_doc {rev : ℤ} {d : Doc} (hd : s.doc = some d)
    (h : AtLeast (d.get docBaseRevisionField) rev) : Reached s rev := by
  rw [Reached]
  split
  · trivial
  · trivial
  · trivial
  · exact .inr ⟨d, hd, h⟩
  · exact ⟨d, hd, h⟩

theorem TellsRole.columns_ne_nil (h : TellsRole view.schema link inserted)
    (hrole : LinkedRole view.schema link) : columns link.base.fields ≠ [] := fun hnil => by
  refine h.carries.1 (eq_nil_iff_get.2 fun k => ?_)
  simp [get_baseSet, sharedBaseBusinessColumns, hrole.shared, hnil]

theorem Reached.advance {rev : ℤ} {d d' : Doc} (h : Reached s rev) (hd : s.doc = some d)
    (ha : Advances (d.get docBaseRevisionField) (d'.get docBaseRevisionField))
    (hdoc : s'.doc = some d') (hinsert : s'.insert = s.insert) : Reached s' rev := by
  have hstay : (∃ d ∈ s.doc, AtLeast (d.get docBaseRevisionField) rev) →
      ∃ d ∈ s'.doc, AtLeast (d.get docBaseRevisionField) rev := by
    rintro ⟨e, he, hrev⟩
    cases hd.symm.trans he
    exact ⟨d', hdoc, hrev.advance ha⟩
  rw [Reached] at h ⊢
  rw [hinsert]
  split at h
  · trivial
  · trivial
  · trivial
  · exact h.imp_right hstay
  · exact hstay h

variable [DecidableEq ι]

/-- **The fan-out of one event moves on**, the document stays or advances. -/
theorem BaseHandshakeInv.move (hinv : BaseHandshakeInv view link inserted events s) {i : ι}
    {p : FanOutPhase} (hinsert : s'.insert = s.insert)
    (hstamp : s.stampedBaseRevision ≤ s'.stampedBaseRevision)
    (hfan : s'.fanOut = update s.fanOut i p)
    (hdoc : s'.doc = s.doc ∨ ∃ d d', s.doc = some d ∧ s'.doc = some d' ∧
      Advances (d.get docBaseRevisionField) (d'.get docBaseRevisionField) ∧
      linkedTo view.schema inserted.payload.ids.baseID d' = true)
    (hrev : p ≠ .waiting → (events i).payload.ids.baseRevision ≤ s'.stampedBaseRevision)
    (hfound : p = .probed true → s'.doc.isSome)
    (hpush : p = .done ∨ p = .probed false → Carries view.schema (events i) →
      Reached s' (baseRev (events i))) : BaseHandshakeInv view link inserted events s' := by
  have hsome : s.doc.isSome → s'.doc.isSome := fun h => by
    rcases hdoc with he | ⟨d, d', hd, hd', -⟩
    · rw [he]
      exact h
    · rw [hd']
      rfl
  have hreached : ∀ rev, Reached s rev → Reached s' rev := fun rev h => by
    rcases hdoc with he | ⟨d, d', hd, hd', ha, -⟩
    · rw [Reached, hinsert, he]
      exact h
    · exact h.advance hd ha hd' hinsert
  constructor
  · intro d hd
    rcases hdoc with he | ⟨e, d', he, hd', ha, hl⟩
    · exact hinv.marked d (he ▸ hd)
    · cases hd'.symm.trans hd
      exact ⟨(hinv.marked e he).1.advance ha, hl⟩
  · intro hne
    obtain ⟨d, hd, hat⟩ := hinv.born (hinsert ▸ hne)
    rcases hdoc with he | ⟨e, d', he, hd', ha, -⟩
    · exact ⟨d, he ▸ hd, hat⟩
    · cases he.symm.trans hd
      exact ⟨d', hd', hat.advance ha⟩
  · rw [hfan]
    exact (forall_update_iff _ fun _ ph => ph ≠ _ → _).2
      ⟨hrev, fun j _ hj => (hinv.stamped j hj).trans hstamp⟩
  · rw [hfan]
    exact (forall_update_iff _ fun _ ph => ph = _ → _).2
      ⟨hfound, fun j _ hj => hsome (hinv.found j hj)⟩
  · exact fun hb => (hinv.behind (hinsert ▸ hb)).trans_le hstamp
  · exact fun doc hc => hinv.composed doc (hinsert ▸ hc)
  · rw [hfan]
    exact (forall_update_iff _ fun _ ph => ph = _ ∨ ph = _ → _).2
      ⟨hpush, fun j _ hj hcarries => hreached _ (hinv.pushed j hj hcarries)⟩

variable (hinv : BaseHandshakeInv view link inserted events s)
include hinv

omit [DecidableEq ι] in
/-- **The insert moves on**: the writers of the fan-outs are where they were. -/
theorem BaseHandshakeInv.advance {d' : Doc} (hdoc : s'.doc = some d') (hfan : s'.fanOut = s.fanOut)
    (hstamp : s'.stampedBaseRevision = s.stampedBaseRevision)
    (hmarked : Watermarked d' docBaseRevisionField)
    (hlinked : linkedTo view.schema inserted.payload.ids.baseID d' = true)
    (hborn : AtLeast (d'.get docBaseRevisionField) (baseRev inserted))
    (hbehind : s'.insert = .behind → 0 < s.stampedBaseRevision)
    (hcomposed : ∀ doc, s'.insert = .composed doc → ∃ n, 0 < n ∧ doc.get docBaseRevisionField = some
      (.int (n : ℕ)) ∧ ComposedRole view.schema link inserted.payload.ids.baseID n doc)
    (hpush : ∀ rev : ℕ, rev ≤ s.stampedBaseRevision → Reached s rev → Reached s' rev) :
    BaseHandshakeInv view link inserted events s' := by
  constructor
  · intro d hd
    cases hdoc.symm.trans hd
    exact ⟨hmarked, hlinked⟩
  · exact fun _ => ⟨d', hdoc, hborn⟩
  · intro i hi
    rw [hstamp]
    exact hinv.stamped i (hfan ▸ hi)
  · intro i _
    rw [hdoc]
    rfl
  · exact hstamp ▸ hbehind
  · exact hcomposed
  · intro i hi hcarries
    rw [hfan] at hi
    refine hpush _ (hinv.stamped i ?_) (hinv.pushed i hi hcarries)
    rcases hi with hi | hi <;> rw [hi] <;> nofun

theorem BaseHandshakeInv.probe {i : ι}
    (hstep : (baseHandshakeMachine view inserted events).step s (.probe i) = some s') :
    BaseHandshakeInv view link inserted events s' := by
  simp only [baseHandshakeMachine] at hstep
  split_ifs at hstep with hi hnil
  · cases hstep
    refine hinv.move rfl le_rfl rfl (.inl rfl) (fun _ => hinv.stamped i (by rw [hi]; nofun))
      nofun fun _ hcarries => ?_
    exact absurd hnil (buildFanOutStages_ne_nil hcarries)
  · cases hstep
    refine hinv.move rfl le_rfl rfl (.inl rfl) (fun _ => hinv.stamped i (by rw [hi]; nofun))
      (fun hp => ?_) fun hp _ => ?_
    · have hany := FanOutPhase.probed.inj hp
      cases hd : s.doc with
      | none => simp [hd] at hany
      | some d => rfl
    · -- a document that has been written is found
      by_cases hw : s.insert = .waiting
      · rw [Reached]
        simp [hw]
      · obtain ⟨d, hd, -⟩ := hinv.born hw
        have hl := (hinv.marked d hd).2
        rw [mem_def.1 hd, any_some, hl] at hp
        rcases hp with hp | hp <;> cases hp

theorem BaseHandshakeInv.pull
    (hstep : (baseHandshakeMachine view inserted events).step s .pull = some s') :
    BaseHandshakeInv view link inserted events s' := by
  simp only [baseHandshakeMachine] at hstep
  split_ifs at hstep with hw hle
  all_goals
    cases hstep
    obtain ⟨d, hd, hat⟩ := hinv.born (by rw [hw]; nofun)
    obtain ⟨hmark, hlink⟩ := hinv.marked d hd
  · refine hinv.advance hd rfl rfl hmark hlink hat nofun nofun fun rev hrev _ => ?_
    obtain ⟨n, hn, hle'⟩ := hat
    refine ⟨d, hd, n, hn, ?_⟩
    rw [baseRev] at hle'
    omega
  · exact hinv.advance hd rfl rfl hmark hlink hat (fun _ => Nat.zero_lt_of_lt (not_le.1 hle)) nofun
      fun _ _ _ => trivial

section

variable (hrole : LinkedRole view.schema link)
include hrole

theorem BaseHandshakeInv.apply {i : ι}
    (hstep : (baseHandshakeMachine view inserted events).step s (.apply i) = some s') :
    BaseHandshakeInv view link inserted events s' := by
  have hrev : s.fanOut i ≠ .waiting → (events i).payload.ids.baseRevision ≤
    s.stampedBaseRevision := hinv.stamped i
  simp only [baseHandshakeMachine] at hstep
  split at hstep
  · rename_i hi
    cases hstep
    exact hinv.move rfl le_rfl rfl (.inl rfl) (fun _ => hrev (by simp [hi])) (by simp)
      fun _ hcarries => hinv.pushed i (.inr hi) hcarries
  · rename_i hi
    obtain ⟨d, hd⟩ := isSome_iff_exists.1 (hinv.found i hi)
    obtain ⟨hmark, hlink⟩ := hinv.marked d hd
    rw [hd, applyProjection] at hstep
    cases hrun : runStages d (buildFanOutStages view.schema (events i).payload) with
    | error m =>
      rw [hrun] at hstep
      cases hstep
    | ok d' =>
      rw [hrun] at hstep
      cases hstep
      obtain ⟨hadv, hreach, hframe⟩ := buildFanOutStages_reaches hrun
      have hlink' : linkedTo view.schema inserted.payload.ids.baseID d' = true := by
        rw [hrole.linkedTo_iff] at hlink ⊢
        rw [hframe _ hrole.link_mem, hlink]
      refine hinv.move rfl le_rfl rfl (.inr ⟨d, d', hd, rfl, hadv, hlink'⟩)
        (fun _ => hrev (by simp [hi])) (by simp) fun _ hcarries => ?_
      exact .of_doc rfl (hreach hcarries hmark)
  · cases hstep

theorem BaseHandshakeInv.write (hins : TellsRole view.schema link inserted)
    (hstep : (baseHandshakeMachine view inserted events).step s .write = some s') :
    BaseHandshakeInv view link inserted events s' := by
  obtain ⟨hw, hstep⟩ := ite_none_right_eq_some.1 hstep
  split at hstep
  · rename_i doc happly
    cases hstep
    obtain ⟨-, d', rfl, hrun⟩ := (applyProjection_ok happly).resolve_left nofun
    obtain ⟨hadv, hreach, hcol⟩ := buildProjectionStages_reaches hins.wellFormed hrun
    have hmark : Watermarked (s.doc.getD [("_id", .str inserted.aggregateID)])
        docBaseRevisionField := by
      cases hd : s.doc with
      | none => exact .inl rfl
      | some d => exact (hinv.marked d hd).1
    refine hinv.advance rfl rfl rfl (hmark.advance hadv) ?_ (hreach hins.carries hmark) nofun nofun
      fun _ _ _ => trivial
    rw [hrole.linkedTo_iff]
    rcases hcol _ _ hins.link with he | ⟨hpast, he⟩
    · exact he
    · -- only a document that was there can be past the event
      rw [he]
      cases hd : s.doc with
      | none =>
        rw [hd] at hpast
        cases hpast
      | some d => exact hrole.linkedTo_iff.1 (hinv.marked d hd).2
  · cases hstep

theorem BaseHandshakeInv.compose {rows : Database}
    (hshow : ShowsRole view inserted.aggregateID (.compose rows : BaseHandshakeAction ι))
    (hstep : (baseHandshakeMachine view inserted events).step s (.compose rows) = some s') :
    BaseHandshakeInv view link inserted events s' := by
  obtain ⟨hw, hstep⟩ := ite_none_right_eq_some.1 hstep
  obtain ⟨hbehind, hholds⟩ := hw
  obtain ⟨doc, hdoc⟩ := isSome_iff_exists.1 hshow
  rw [hdoc] at hstep
  cases hstep
  obtain ⟨d, hd, hat⟩ := hinv.born (by simp [hbehind])
  obtain ⟨hmark, hlink⟩ := hinv.marked d hd
  -- the composer has seen a row of the role, which references the identity
  have hroot : (rows.root view.schema.table inserted.aggregateID).isSome := by
    cases hr : rows.root view.schema.table inserted.aggregateID with
    | some r => rfl
    | none =>
      simp only [Query.compose, EntityView.toView, hr] at hdoc
      cases hdoc
  obtain ⟨r, hr⟩ := isSome_iff_exists.1 hroot
  obtain ⟨hlinkRow, b, hb, hle⟩ := hholds r hr
  have hrole' := compose_role hrole hr (hlinkRow ▸ hb) hdoc
  rw [hlinkRow] at hrole'
  obtain ⟨n, hn, hbn⟩ := hrole'.revision
  have hpos := hinv.behind hbehind
  refine hinv.advance hd rfl rfl hmark hlink hat (by simp) (fun doc' hc => ?_) fun rev hrev _ => ?_
  · cases hc
    exact ⟨n, by omega, hn, ⟨n, hn, le_rfl⟩, hrole'.columns, hrole'.link⟩
  · refine .inl ⟨n, hn, ?_⟩
    omega

theorem BaseHandshakeInv.repair (hins : TellsRole view.schema link inserted)
    (hstep : (baseHandshakeMachine view inserted events).step s .repair = some s') :
    BaseHandshakeInv view link inserted events s' := by
  simp only [baseHandshakeMachine] at hstep
  split at hstep
  · rename_i doc hc
    obtain ⟨n, hpos, hn, hdoc⟩ := hinv.composed doc hc
    obtain ⟨d, hd, hat⟩ := hinv.born (by rw [hc]; nofun)
    obtain ⟨hmark, hlink⟩ := hinv.marked d hd
    split at hstep
    · rename_i doc' happly
      cases hstep
      rw [mem_def.1 hd] at happly
      obtain ⟨d', rfl, hadv, hreach, hlink'⟩ := consult_reaches hrole
        (hins.columns_ne_nil hrole) hpos hdoc hmark hlink happly
      refine hinv.advance rfl rfl rfl (hmark.advance hadv) hlink' (hat.advance hadv) nofun nofun
        fun rev _ h => ?_
      rw [Reached, hc] at h
      rcases h with ⟨m, hm, hle⟩ | ⟨e, he, hle⟩
      · cases hn.symm.trans hm
        obtain ⟨m', hm', hle'⟩ := hreach
        exact ⟨d', rfl, m', hm', hle.trans hle'⟩
      · cases hd.symm.trans he
        exact ⟨d', rfl, hle.advance hadv⟩
    · cases hstep
  · cases hstep

/-- **One step of the handshake.** -/
theorem BaseHandshakeInv.step (hins : TellsRole view.schema link inserted)
    (hshow : ShowsRole view inserted.aggregateID a)
    (hstep : (baseHandshakeMachine view inserted events).step s a = some s') :
    BaseHandshakeInv view link inserted events s' := by
  cases a with
  | stamp i =>
    obtain ⟨hi, rfl⟩ := ite_some_none_eq_some.1 hstep
    exact hinv.move rfl (le_max_left ..) rfl (.inl rfl) (fun _ => le_max_right ..) nofun
      (fun h => by rcases h with h | h <;> cases h)
  | probe i => exact hinv.probe hstep
  | apply i => exact hinv.apply hrole hstep
  | write => exact hinv.write hrole hins hstep
  | pull => exact hinv.pull hstep
  | compose rows => exact hinv.compose hrole hshow hstep
  | repair => exact hinv.repair hrole hins hstep

end

omit hinv

/-- **The handshake is complete**: once the insert and the fan-outs are through, whatever their
interleaving, the document of the role is at the revision of the base of every event that carried
columns of the base, or past it. -/
theorem handshake_complete (hrole : LinkedRole view.schema link)
    (hins : TellsRole view.schema link inserted) {doc : Option Doc} {stamped : ℕ}
    (hdoc : ∀ d ∈ doc, Watermarked d docBaseRevisionField ∧
      linkedTo view.schema inserted.payload.ids.baseID d = true)
    {actions : List (BaseHandshakeAction ι)}
    (hshow : ∀ a ∈ actions, ShowsRole view inserted.aggregateID a)
    (hrun : (baseHandshakeMachine view inserted events).run
      { doc := doc, stampedBaseRevision := stamped } actions = some s)
    (hfin : s.Finished) :
    ∃ d, s.doc = some d ∧ AtLeast (d.get docBaseRevisionField) (baseRev inserted) ∧
      ∀ i, s.fanOut i = .done → Carries view.schema (events i) →
        AtLeast (d.get docBaseRevisionField) (baseRev (events i)) := by
  have hstart : BaseHandshakeInv view link inserted events
      ({ doc := doc, stampedBaseRevision := stamped } : BaseHandshakeState ι) :=
    ⟨hdoc, fun h => absurd rfl h, fun _ h => absurd rfl h, nofun, nofun, nofun,
      fun i h => by rcases h with h | h <;> cases h⟩
  have hinv : BaseHandshakeInv view link inserted events s :=
    Machine.run_invariant (fun _ _ _ h ha hstep => h.step hrole hins ha hstep) hstart
      (Machine.along_of_forall hshow _) hrun
  obtain ⟨d, hd, hat⟩ := hinv.born (by rw [hfin.1]; nofun)
  refine ⟨d, hd, hat, fun i hi hcarries => ?_⟩
  have hreached := hinv.pushed i (.inl hi) hcarries
  rw [Reached, hfin.1] at hreached
  obtain ⟨e, he, hle⟩ := hreached
  cases hd.symm.trans he
  exact hle

end

/-! ### Two roles of a person -/

/-- The event of one role of a person. -/
def personEvent (table : String) (eventType : EventType) (id : String) (scalars : Fields)
    (baseRevision : ℕ) : OutboxRow where
  aggregateType := table
  eventType := eventType
  aggregateID := id
  payload := { scalars, ids := { id, revision := 1, baseID := "p", baseRevision } }

/-- A student is enrolled. -/
def enrolled : OutboxRow :=
  personEvent "student" .inserted "s"
    [("course", .str "math"), ("person_id", .str "p"), ("name", .str "Ana")] 1

theorem linkedRole_students : ∃ link, LinkedRole students link ∧ TellsRole students link enrolled :=
  ⟨_, ⟨rfl, by decide, by decide⟩, ⟨by decide, by decide, by decide, by decide⟩, by decide, rfl⟩

/-- The person after the renaming. -/
def renamed : Database where
  roots _ := ⟨[{ id := "s", parentID := "p", fields := [("course", .str "math")] }], by decide⟩
  bases := ⟨[{ id := "p", fields := [("name", .str "Eva")], revision := 2 }], by decide⟩

/-- The person is renamed through another role, whose fan-out looks for documents before the one of
the student is there. -/
theorem renamed_while_enrolled :
    ∃ s ∈ (baseHandshakeMachine ⟨students, false⟩ enrolled fun _ : Unit =>
        personEvent "teacher" .updated "t" [("person_id", .str "p"), ("name", .str "Eva")] 2).run {}
        [.stamp (), .probe (), .write, .pull, .compose renamed, .repair, .apply ()],
      ∃ d, s.doc = some d ∧ AtLeast (d.get docBaseRevisionField) 2 := by
  refine Machine.exists_run (fun s => s.insert = .done ∧ s.fanOut () = .done) (by decide +kernel)
    fun s hs ⟨hinsert, hfan⟩ => ?_
  obtain ⟨link, hrole, hins⟩ := linkedRole_students
  have hshow : (compose (EntityView.toView ⟨students, false⟩) renamed
      enrolled.aggregateID).isSome := by decide
  obtain ⟨d, hd, -, hat⟩ := handshake_complete hrole hins
    (fun _ hd => absurd hd (not_mem_none _)) (by simpa [ShowsRole] using hshow) hs
    ⟨hinsert, fun _ => .inr hfan⟩
  exact ⟨d, hd, hat () hfan (by decide)⟩

/-- **A deletion that is not pushed.**  The deletion of the other role records the revision it gives
the base, but tells no columns of the base: the document of the student stays behind. -/
theorem deletion_not_pushed :
    ∃ s ∈ (baseHandshakeMachine ⟨students, false⟩ enrolled fun _ : Unit =>
        { aggregateType := "teacher", eventType := .deleted, aggregateID := "t"
          payload := buildDeletePayload { students.toSchemaDecl with table := "teacher" }
            ({ values := fun _ => .str "Ana" } : Entity Unit) (fun _ => "p") "t"
            { id := "t", revision := 1, baseID := "p", baseRevision := 2 } }).run {}
        [.write, .pull, .stamp (), .probe ()],
      (s.insert = .done ∧ s.fanOut () = .done) ∧ s.stampedBaseRevision = 2 ∧
        ∃ d ∈ s.doc, d.get docBaseRevisionField = some (.int 1) := by
  decide +kernel

end Omnicore.Query
