import Omnicore.Query.Scopes
import Omnicore.Query.ShadowVerify

/-!
# Deleted roots and bulk writes

The deletion of a root records a tombstone and deletes the document in the slot that serves reads
and in the shadow.  A batch of a rebuild composes a root some time before it writes it, and the
write does not look for a tombstone.  What a backfill brings back to the shadow the reverse pass of
the verification deletes, since no row is streamed for it; what a rebuild in place or a repair of
the verification brings back stays.

## Main definitions

* `Timely` : a rebuild in place or a repair writes a root before its deletion.
* `Dying` : where the document of a root that is being deleted can still be.

## Main results

* `Dying.step` : what a step keeps.
* `deleted_stays_deleted` : a deleted root is not served, in every run of timely steps.
* `deleted_customer_comes_back` : a write that comes too late.
-/

namespace Omnicore.Query

open Omnicore.Core Write List AssocMap Function ShadowState

/-! ### Documents of one life -/

/-- The document is of the life of a row: not newer, and with its instant of creation where the
incarnation test looks for it. -/
def OfRow (schema : TableSchema) (last : Option RowStamp) (d : Doc) : Prop :=
  ∃ r, last = some r ∧ Watermarked d docRevisionField ∧
    storedRevision d docRevisionField ≤ r.revision ∧
    (r.createdAt.elim 0 PNat.val = 0 ∨
      schema.createdAt.isSome ∧ BornAt (r.createdAt.elim 0 PNat.val) d)

/-- The incarnation test finds the CreatedAt column of the root, or nothing. -/
structure ReadsIncarnation (view : EmbeddingView) (schema : TableSchema) : Prop where
  root : view.root = .entity schema.toSchemaDecl
  readable : IncarnationReadable schema.toSchemaDecl
  base : ∀ link ∈ schema.sharedBase, incarnationField ∉
    (baseColumns link.base).filter (· ∉ sharedBaseSkipSet link.base schema.toSchemaDecl)
  embeds : incarnationField ∉ view.embedFields

section

variable {view : RebuildView} {schema : TableSchema} {db : Database} {id : String} {doc d d' : Doc}
  {r : RowStamp}

theorem OfRow.deleteGuarded (h : OfRow schema (some r) d) :
    deleteGuarded (some d) r.revision (r.createdAt.elim 0 PNat.val) = none := by
  obtain ⟨r', hr, hmark, hrev, hborn⟩ := h
  cases hr
  exact deleteGuarded_of_le hmark hrev (hborn.imp_right And.right)

theorem OfRow.mono {r' : RowStamp} (h : OfRow schema (some r) d) (hrev : r.revision ≤ r'.revision)
    (hborn : r.createdAt = r'.createdAt) : OfRow schema (some r') d := by
  obtain ⟨r0, hr, hmark, hle, hat⟩ := h
  cases hr
  exact ⟨r', rfl, hmark, by omega, hborn ▸ hat⟩

theorem ReadsIncarnation.own {view : EmbeddingView} (h : ReadsIncarnation view schema)
    (hcreated : schema.createdAt.isSome) :
    incarnationField ∉ schema.sharedBaseBusinessColumns ∧
      incarnationField ∉ schema.allChildren.map ChildSchema.segment := by
  obtain ⟨col, hcol⟩ := Option.isSome_iff_exists.1 hcreated
  rcases h.readable col hcol with rfl | hfree
  · exact schema.ownColumn_disjoint (createdAt_mem_ownColumns hcol)
  · simp only [SchemaDecl.documentKeys, mem_append, not_or] at hfree
    exact ⟨hfree.1.2, hfree.2⟩

theorem bornAt_rootRowDoc (h : IncarnationReadable schema) {col : String}
    (hcol : schema.createdAt = some col) {x : RootRow} {t : Instant} (hx : x.createdAt = some t) :
    BornAt t (rootRowDoc schema x) := by
  rcases h col hcol with rfl | hfree
  · refine bornAt_of_get (.inr ?_)
    refine get_of_mem (keys_rootRowDoc_nodup schema x) (p := (incarnationField, .time t)) ?_
    simp [rootRowDoc, hcol, hx, nullable]
  · refine bornAt_of_get (.inl ((get_eq_none_iff ..).2 fun hmem => hfree ?_))
    obtain ⟨ks, hkeys, hsub⟩ := keys_rootRowDoc schema x
    rw [hkeys, mem_concat] at hmem
    rcases hmem with hmem | hmem
    · exact mem_append_left _ (mem_append_left _ (hsub.subset hmem))
    · exact absurd hmem (by decide)

section

variable (hread : ReadsIncarnation view schema)
include hread

theorem get_composeEmbedding_incarnation (hcreated : schema.createdAt.isSome) {embeds : Doc}
    {x : RootRow} (hx : db.root schema.table id = some x)
    (h : composeEmbedding view db id embeds = some doc) :
    doc.get incarnationField = (rootRowDoc schema x).get incarnationField := by
  obtain ⟨d, hd, rfl⟩ := Option.map_eq_some_iff.1 h
  have hseg := (hread.own hcreated).2
  rw [SchemaDecl.allChildren, map_append, mem_append, not_or] at hseg
  rw [get_setAll_of_not_mem]
  · simp only [compose, hread.root, hx, Option.map_eq_some_iff] at hd
    obtain ⟨x', hx', rfl⟩ := hd
    cases (Option.filter_eq_some_iff.1 hx').1
    rw [get_mergeChildren hseg.1, get_mergeChildren hseg.2,
      get_mergeSharedBase hread.base (by decide)]
  · intro hmem
    obtain ⟨p, hp, he⟩ := mem_map.1 hmem
    have hfield := (mem_filter.1 hp).2
    rw [he, decide_eq_true_eq] at hfield
    exact hread.embeds hfield.1

/-- **A composed root** is of the life of its row. -/
theorem composeEmbedding_ofRow {embeds : Doc} (h : composeEmbedding view db id embeds = some doc)
    (hr : view.root.row db id = some r) : OfRow schema (some r) doc := by
  obtain ⟨r', hr', hrev, -⟩ := composeEmbedding_stamped h
  cases hr.symm.trans hr'
  refine ⟨r, rfl, .inr ⟨_, hrev⟩, by rw [storedRevision_of_get hrev], ?_⟩
  rw [hread.root, ViewRoot.row] at hr
  obtain ⟨x, hx, rfl⟩ := Option.map_eq_some_iff.1 hr
  cases hcol : schema.createdAt with
  | none => exact .inl rfl
  | some col =>
    cases ht : x.createdAt with
    | none => exact .inl rfl
    | some t =>
      refine .inr ⟨rfl, ?_⟩
      exact (bornAt_rootRowDoc hread.readable hcol ht).congr
        (get_composeEmbedding_incarnation hread (by rw [hcol]; rfl) hx h)

theorem consultStages_incarnation (hcreated : schema.createdAt.isSome)
    (h : runStages d (consultStages view doc) = .ok d') :
    d'.get incarnationField = doc.get incarnationField ∨
      d'.get incarnationField = d.get incarnationField := by
  obtain ⟨hcol, hseg⟩ := hread.own hcreated
  have hscope : incarnationField ∉ baseScope view.root := by
    rw [hread.root]
    exact fun hmem => (mem_append.1 hmem).elim hcol fun h => hseg (baseSegment_mem h)
  obtain ⟨d2, h2, h3⟩ := runStages_append_ok h
  obtain ⟨d1, h1, h2⟩ := runStages_append_ok h2
  have hfirst : d1.get incarnationField = d.get incarnationField := by
    refine (embed_ok h1).2 _ ?_
    rw [embedData, get_filter_dataFields fun k => decide (k ∈ view.embedFields)]
    simp [hread.embeds]
  have hlast : d'.get incarnationField = d2.get incarnationField := by
    rcases runStages_unless h3 with ⟨-, rfl⟩ | ⟨-, happly⟩
    · rfl
    · refine scopeStage_get_of_not_mem happly ?_ (by decide)
      rw [baseData, get_filter_dataFields
        fun k => decide (k ∉ view.embedFields ∧ k ∈ baseScope view.root)]
      simp [hscope]
  rw [hlast, ← hfirst]
  rcases runStages_unless h2 with ⟨-, rfl⟩ | ⟨-, happly⟩
  · exact .inr rfl
  have hown : (ownData view doc).get incarnationField = doc.get incarnationField := by
    have hdata : isData incarnationField = true := by decide
    rw [ownData, get_filter_dataFields
      fun k => decide (k ∉ view.embedFields ∧ k ∉ baseScope view.root)]
    simp [hread.embeds, hscope, hdata]
  cases hget : doc.get incarnationField with
  | none => exact .inr (scopeStage_get_of_not_mem happly (hown.trans hget) (by decide))
  | some v =>
    have hscalar : (ownShape view.root).IsScalar incarnationField := by
      rw [hread.root]
      refine ⟨(get_eq_none_iff ..).2 fun hmem => hseg ?_, by rintro ⟨⟩⟩
      rw [SchemaDecl.allChildren, map_append]
      refine mem_append_left _ ?_
      simpa [AssocMap.keys, ownShape, arraySegs, comp_def] using hmem
    exact scopeStage_column happly hscalar (hown.trans hget)

end

theorem OfRow.start {last : Option RowStamp} (h : OfRow schema last doc) (id : String) :
    OfRow schema last [("_id", .str id)] := by
  obtain ⟨r, hr, -, -, hborn⟩ := h
  refine ⟨r, hr, .inl rfl, ?_, hborn.imp_right fun h => ⟨h.1, rfl⟩⟩
  have hstored : storedRevision [("_id", Value.str id)] docRevisionField = -1 := rfl
  omega

/-- **A snapshot of the same life** on a document of it. -/
theorem consultStages_ofRow (hread : ReadsIncarnation view schema)
    {last : Option RowStamp} (hd : OfRow schema last d) (hdoc : OfRow schema last doc)
    (h : runStages d (consultStages view doc) = .ok d') : OfRow schema last d' := by
  obtain ⟨r, rfl, hmark, hle, hborn⟩ := hd
  obtain ⟨r', hr', -, hle', hborn'⟩ := hdoc
  cases hr'
  refine ⟨r, rfl, hmark.advance (consultStages_advances h), ?_, ?_⟩
  · obtain ⟨d1, d2, h1, h2, h3⟩ := consultStages_revision h
    have hstored : ∀ e e' : Doc, e.get docRevisionField = e'.get docRevisionField →
        storedRevision e docRevisionField = storedRevision e' docRevisionField := fun e e' he => by
      rw [storedRevision, storedRevision, he]
    rw [hstored d' d2 h3]
    rw [← hstored d1 d h1] at hle
    rcases runStages_unless h2 with ⟨-, rfl⟩ | ⟨-, happly⟩
    · exact hle
    by_cases hrev : watermarkOf (doc.get docRevisionField) ≤ 0
    · rw [scopeStage, if_pos hrev] at happly
      rw [hstored d2 d1 (SetStage.get_of_apply happly ?_)]
      · exact hle
      · rw [get_map _ fun _ v => Expr.lit v, ownData_revision]
        rfl
    · rw [not_le] at hrev
      have hmark1 : Watermarked d1 docRevisionField := by
        rw [Watermarked, h1]
        exact hmark
      rw [storedRevision_of_get (eq_int_of_watermarkOf_pos hrev)] at hle'
      rw [storedRevision_of_get (scopeStage_watermark hrev hmark1 happly ownData_revision)]
      exact max_le hle hle'
  · rcases hborn with hzero | ⟨hcreated, hborn⟩
    · exact .inl hzero
    rcases hborn' with hzero | ⟨-, hborn'⟩
    · exact .inl hzero
    refine .inr ⟨hcreated, ?_⟩
    rcases consultStages_incarnation hread hcreated h with he | he
    · exact hborn'.congr he
    · exact hborn.congr he

end

/-! ### Writes that come in time -/

/-- The deletion of a root has not begun to delete documents. -/
def BeforeDeletion (s : ShadowState) (id : String) : Prop :=
  s.deletions id = .pending ∨ s.deletions id = .stamped

instance (s : ShadowState) (id : String) : Decidable (BeforeDeletion s id) :=
  inferInstanceAs (Decidable (_ ∨ _))

/-- A rebuild in place and a repair write a root before its deletion deletes documents, the slots
are not switched in the middle of the deletion, and no live event of the root is applied. -/
def Timely (id : String) (s : ShadowState) : ShadowAction → Prop
  | .bulkApply i => ∀ item ∈ s.inFlight[i]?, item.id = id →
      (item.slot = .new ∧ s.flipped = false) ∨ BeforeDeletion s id
  | .verify (.applyDiverged i) => ∀ item ∈ s.verify.items[i]?, item.1 = id → BeforeDeletion s id
  | .flip => s.deletions id ≠ .activeDeleted
  | .project _ j _ => j ≠ id
  | _ => True

instance (id : String) (s : ShadowState) : DecidablePred (Timely id s) := fun a => by
  unfold Timely
  split <;> infer_instance

/-- The reverse pass is going to delete the document. -/
def Orphaned (id : String) : VerifyPhase → Prop
  | .snapshotted ids | .repairing _ _ _ ids | .reversing ids => id ∈ ids
  | .scanning rows _ _ _ ids => id ∈ ids ∧ id ∉ rows.map Prod.fst
  | .waiting | .returned => False

/-- The documents of a root are of its life, and once they have been deleted a backfill alone can
have brought one back to the shadow, where the verification is going to find it. -/
structure Dying (view : EmbeddingView) (schema : TableSchema) (id : String) (s : ShadowState) :
    Prop where
  inv : ShadowInv view s
  docs : ∀ slot d, (s.docs slot).get id = some d → OfRow schema (s.last id) d
  flight : ∀ item ∈ s.inFlight, item.id = id → OfRow schema (s.last id) item.doc
  items : ∀ item ∈ s.verify.items, item.1 = id → OfRow schema (s.last id) item.2
  backfill : ∀ item ∈ s.inFlight, item.slot = .new → s.flipped = true ∨ s.verify = .waiting
  flipped : s.flipped = true → s.verify = .returned
  served : ¬BeforeDeletion s id → (s.docs s.served).get id = none
  shadow : s.flipped = false → s.deletions id = .finished →
    s.verify = .waiting ∨ (s.docs .new).get id = none ∨ Orphaned id s.verify

section

variable {view : EmbeddingView} {schema : TableSchema} {s s' : ShadowState} {a : ShadowAction}
  {id : String}

theorem not_beforeDeletion (h : s.deletions id = .activeDeleted ∨ s.deletions id = .finished) :
    ¬BeforeDeletion s id := by
  rw [BeforeDeletion]
  rcases h with h | h <;> simp [h]

theorem ViewRoot.row_of_mem_rows {root : ViewRoot} {db : Database}
    (h : id ∈ (root.rows db).map Prod.fst) : (root.row db id).isSome := by
  rw [Option.isSome_iff_ne_none]
  cases root with
  | entity schema | sharedBase base roles =>
    simp only [rows, map_map, mem_map] at h
    obtain ⟨x, hx, rfl⟩ := h
    rw [row, Ne, Option.map_eq_none_iff]
    refine Table.find_eq_none_iff.not.2 ?_
    exact fun hnone => hnone x hx rfl

variable {slot : Slot} {j : String} {v : VerifyAction} {view : RebuildView}

theorem ofRow_of_write (hread : ReadsIncarnation view schema) {doc : Doc}
    (hdocs : ∀ d, (s.docs slot).get id = some d → OfRow schema (s.last id) d)
    (hdoc : OfRow schema (s.last id) doc)
    (h : s.write slot id (consultStages view doc) true = some s') :
    ∃ d', s' = s.put slot id (some d') ∧ OfRow schema (s.last id) d' := by
  obtain ⟨stored, hstored, rfl⟩ := write_ok h
  obtain ⟨-, d', rfl, hrun⟩ := (applyProjection_ok hstored).resolve_left nofun
  refine ⟨d', rfl, consultStages_ofRow hread ?_ hdoc hrun⟩
  cases hd : (s.docs slot).get id with
  | none => exact hdoc.start id
  | some d => exact hdocs d hd

/-- A step that leaves the documents of the root alone or deletes them: where the deletion moves on,
the document is gone. -/
theorem Dying.frame (h : Dying view schema id s) (hinv : ShadowInv view s')
    (hlast : s'.last = s.last) (hdocs : ∀ slot, (s'.docs slot).get id = (s.docs slot).get id ∨
      (s'.docs slot).get id = none)
    (hflight : ∀ item ∈ s'.inFlight, item ∈ s.inFlight) (hverify : s'.verify = s.verify)
    (hflip : s'.flipped = s.flipped)
    (hserved : BeforeDeletion s id → BeforeDeletion s' id ∨ (s'.docs s.served).get id = none)
    (hshadow : s'.deletions id = .finished → s.flipped = true ∨ s.deletions id = .finished ∨
      (s'.docs .new).get id = none) : Dying view schema id s' := by
  have hslot : s'.served = s.served := by rw [ShadowState.served, ShadowState.served, hflip]
  refine ⟨hinv, fun slot d hd => ?_, fun item hitem => ?_, ?_, fun item hitem => ?_, ?_,
    fun hb => ?_, fun hf hfin => ?_⟩
  · rw [hlast]
    rcases hdocs slot with he | he
    · exact h.docs slot d (he ▸ hd)
    · rw [he] at hd
      cases hd
  · rw [hlast]
    exact h.flight item (hflight item hitem)
  · rw [hlast, hverify]
    exact h.items
  · rw [hflip, hverify]
    exact h.backfill item (hflight item hitem)
  · rw [hflip, hverify]
    exact h.flipped
  · rw [hslot]
    by_cases hbefore : BeforeDeletion s id
    · exact (hserved hbefore).resolve_left hb
    · rcases hdocs s.served with he | he
      · rw [he]
        exact h.served hbefore
      · exact he
  · rw [hverify]
    rw [hflip] at hf
    rcases hshadow hfin with hf' | hfin | hnone
    · rw [hf] at hf'
      cases hf'
    · refine (h.shadow hf hfin).imp_right fun hs => hs.imp_left fun hnone => ?_
      rcases hdocs .new with he | he
      · exact he.trans hnone
      · exact he
    · exact .inr (.inl hnone)

theorem ShadowState.get_put_of_ne {slot' : Slot} {doc : Option Doc} (h : j ≠ id) :
    ((s.put slot j doc).docs slot').get id = (s.docs slot').get id := by
  rw [get_put, if_neg fun he => h he.2]

variable (s) in
theorem ShadowState.get_deleteGuarded {slot' : Slot} :
    ((s.deleteGuarded slot j).docs slot').get id = (s.docs slot').get id ∨
      ((s.deleteGuarded slot j).docs slot').get id = none := by
  rw [deleteGuarded]
  split
  · rw [get_put]
    split_ifs with hj
    · obtain ⟨rfl, rfl⟩ := hj
      exact (deleteGuarded_eq ..).symm
    · exact .inl rfl
  · exact .inl rfl

theorem Dying.get_deleteGuarded (h : Dying view schema id s) (slot : Slot) :
    ((s.deleteGuarded slot id).docs slot).get id = none := by
  rw [ShadowState.deleteGuarded]
  cases hd : (s.docs slot).get id with
  | none =>
    split
    · rw [get_put, if_pos ⟨rfl, rfl⟩]
      rfl
    · exact hd
  | some d =>
    have hrow := h.docs slot d hd
    obtain ⟨r, hr, -⟩ := hrow
    simp only [hr]
    rw [get_put, if_pos ⟨rfl, rfl⟩]
    exact (hr ▸ h.docs slot d hd).deleteGuarded

theorem Dying.commit (h : Dying view schema id s) {db : Database}
    (hev : Evolves view s (.commit db))
    (hinv : ShadowInv view { s with
      db := db
      last := fun id => (view.root.row db id).or (s.last id) }) :
    Dying view schema id { s with
      db := db
      last := fun id => (view.root.row db id).or (s.last id) } := by
  have hmono : ∀ d, OfRow schema (s.last id) d →
      OfRow schema ((view.root.row db id).or (s.last id)) d := fun d hd => by
    cases hrow : view.root.row db id with
    | none => exact hd
    | some r' =>
      obtain ⟨r, hr, hrest⟩ := hd
      obtain ⟨-, hrev, hborn⟩ := (hev id r' hrow).2 r hr
      have hd : OfRow schema (some r) d := ⟨r, rfl, hrest⟩
      exact hd.mono hrev hborn
  exact ⟨hinv, fun slot d hd => hmono d (h.docs slot d hd),
    fun item hitem hid => hmono _ (h.flight item hitem hid),
    fun item hitem hid => hmono _ (h.items item hitem hid), h.backfill, h.flipped, h.served,
    h.shadow⟩

theorem Dying.compose (hread : ReadsIncarnation view schema)
    (h : Dying view schema id s) {embeds : Doc} (hinv : ShadowInv view s')
    (hstep : (shadowMachine view).step s (.compose slot j embeds) = some s') :
    Dying view schema id s' := by
  obtain ⟨hslot, rfl⟩ := Option.ite_some_none_eq_some.1 hstep
  refine ⟨hinv, h.docs, fun item hitem hid => ?_, h.items, fun item hitem hnew => ?_, h.flipped,
    h.served, h.shadow⟩
  · rcases mem_append.1 hitem with hitem | hitem
    · exact h.flight item hitem hid
    · obtain ⟨doc, hdoc, rfl⟩ := Option.map_eq_some_iff.1 (Option.mem_toList.1 hitem)
      cases hid
      obtain ⟨r, hr, -⟩ := composeEmbedding_stamped hdoc
      rw [(h.inv.last j r hr).1]
      exact composeEmbedding_ofRow hread hdoc hr
  · rcases mem_append.1 hitem with hitem | hitem
    · exact h.backfill item hitem hnew
    · obtain ⟨doc, hdoc, rfl⟩ := Option.map_eq_some_iff.1 (Option.mem_toList.1 hitem)
      cases hnew
      exact hslot.resolve_left (by simp)

theorem Dying.bulkApply (hread : ReadsIncarnation view schema)
    (h : Dying view schema id s) {i : ℕ} (htimely : Timely id s (.bulkApply i))
    (hinv : ShadowInv view s')
    (hstep : (shadowMachine view).step s (.bulkApply i) = some s') : Dying view schema id s' := by
  obtain ⟨item, hitem, hstep⟩ := Option.bind_eq_some_iff.1 hstep
  obtain ⟨t, ht, rfl⟩ := Option.map_eq_some_iff.1 hstep
  have hmem := mem_of_getElem? hitem
  by_cases hid : item.id = id
  · subst hid
    obtain ⟨d', rfl, hd'⟩ := ofRow_of_write hread (h.docs item.slot) (h.flight item hmem rfl) ht
    have hback := htimely item hitem rfl
    have hget : ∀ slot, slot ≠ item.slot →
        ((s.put item.slot item.id (some d')).docs slot).get item.id = (s.docs slot).get item.id :=
      fun slot hne => by rw [get_put, if_neg fun he => hne he.1.symm]
    refine ⟨hinv, fun slot d hd => ?_,
      fun other hother => h.flight other (mem_of_mem_eraseIdx hother), h.items,
      fun other hother => h.backfill other (mem_of_mem_eraseIdx hother), h.flipped,
      fun hdel => ?_, fun hf hfin => .inl ?_⟩
    · by_cases hslot : slot = item.slot
      · subst hslot
        rw [get_put, if_pos ⟨rfl, rfl⟩] at hd
        cases hd
        exact hd'
      · exact h.docs slot d ((hget slot hslot).symm.trans hd)
    · -- only a backfill comes after the deletion, and it fills the other slot
      obtain ⟨hnew, hf⟩ := hback.resolve_right hdel
      have hserved : s.served = .old := by rw [ShadowState.served, hf]; rfl
      refine (hget s.served ?_).trans (h.served hdel)
      rw [hserved, hnew]
      nofun
    · change s.flipped = false at hf
      obtain ⟨hnew, -⟩ := hback.resolve_right (not_beforeDeletion (.inr hfin))
      exact (h.backfill item hmem hnew).resolve_left (by rw [hf]; nofun)
  · obtain ⟨doc, -, rfl⟩ := write_ok ht
    exact h.frame hinv rfl (fun slot => .inl (get_put_of_ne hid))
      (fun _ h => mem_of_mem_eraseIdx h) rfl rfl .inl fun h => .inr (.inl h)

section

variable (h : Dying view schema id s) (hinv : ShadowInv view s')
include h hinv

theorem Dying.frame_of_ne (hlast : s'.last = s.last)
    (hdocs : ∀ slot, (s'.docs slot).get id = (s.docs slot).get id ∨ (s'.docs slot).get id = none)
    (hflight : s'.inFlight = s.inFlight) (hverify : s'.verify = s.verify)
    (hflip : s'.flipped = s.flipped) (hdel : s'.deletions id = s.deletions id) :
    Dying view schema id s' := by
  refine h.frame hinv hlast hdocs (fun _ hmem => hflight ▸ hmem) hverify hflip (fun hb => .inl ?_)
    fun hfin => .inr (.inl (hdel ▸ hfin))
  rw [BeforeDeletion, hdel]
  exact hb

theorem Dying.stampTombstone (hstep : (shadowMachine view).step s (.stampTombstone j) = some s') :
    Dying view schema id s' := by
  obtain ⟨hj, rfl⟩ := Option.ite_some_none_eq_some.1 hstep
  by_cases hid : j = id
  · subst hid
    refine h.frame hinv rfl (fun _ => .inl rfl) (fun _ h => h) rfl rfl (fun _ => .inl ?_)
      fun hfin => ?_
    · exact .inr (update_self ..)
    · cases (update_self ..).symm.trans hfin
  · exact h.frame_of_ne hinv rfl (fun _ => .inl rfl) rfl rfl rfl (update_of_ne (Ne.symm hid) ..)

theorem Dying.deleteActive (hstep : (shadowMachine view).step s (.deleteActive j) = some s') :
    Dying view schema id s' := by
  obtain ⟨hj, rfl⟩ := Option.ite_some_none_eq_some.1 hstep
  obtain ⟨hframe, hverify, -⟩ := s.deleteGuarded_frame s.served j
  by_cases hid : j = id
  · subst hid
    refine h.frame hinv hframe.last (fun _ => s.get_deleteGuarded) (fun _ h => hframe.inFlight ▸ h)
      hverify hframe.flipped (fun _ => .inr (h.get_deleteGuarded s.served)) fun hfin => ?_
    cases (update_self ..).symm.trans hfin
  · exact h.frame_of_ne hinv hframe.last (fun _ => s.get_deleteGuarded) hframe.inFlight hverify
      hframe.flipped (update_of_ne (Ne.symm hid) ..)

theorem Dying.deleteShadow (hstep : (shadowMachine view).step s (.deleteShadow j) = some s') :
    Dying view schema id s' := by
  simp only [shadowMachine] at hstep
  split_ifs at hstep with hj hflip
  · cases hstep
    by_cases hid : j = id
    · subst hid
      exact h.frame hinv rfl (fun _ => .inl rfl) (fun _ h => h) rfl rfl
        (fun hb => absurd hb (not_beforeDeletion (.inl hj))) fun _ => .inl hflip
    · exact h.frame_of_ne hinv rfl (fun _ => .inl rfl) rfl rfl rfl (update_of_ne (Ne.symm hid) ..)
  · cases hstep
    obtain ⟨hframe, hverify, -⟩ := s.deleteGuarded_frame .new j
    by_cases hid : j = id
    · subst hid
      exact h.frame hinv hframe.last (fun _ => s.get_deleteGuarded)
        (fun _ h => hframe.inFlight ▸ h) hverify hframe.flipped
        (fun hb => absurd hb (not_beforeDeletion (.inl hj)))
        fun _ => .inr (.inr (h.get_deleteGuarded .new))
    · refine h.frame_of_ne hinv hframe.last (fun _ => s.get_deleteGuarded) hframe.inFlight hverify
        hframe.flipped ?_
      exact (update_of_ne (Ne.symm hid) ..).trans (congrFun hframe.deletions id)

end

theorem Dying.flip (h : Dying view schema id s)
    (htimely : Timely id s .flip) (hinv : ShadowInv view s')
    (hstep : (shadowMachine view).step s .flip = some s') : Dying view schema id s' := by
  obtain ⟨hv, rfl⟩ := Option.ite_some_none_eq_some.1 hstep
  refine ⟨hinv, h.docs, h.flight, h.items, fun _ _ _ => .inl rfl, fun _ => hv.1, fun hdel => ?_,
    by simp⟩
  -- the shadow that begins to serve reads has been verified
  have hfin : s.deletions id = .finished := by
    cases hphase : s.deletions id with
    | pending => exact absurd (.inl hphase) hdel
    | stamped => exact absurd (.inr hphase) hdel
    | activeDeleted => exact absurd hphase htimely
    | finished => rfl
  have hshadow := h.shadow hv.2 hfin
  rw [hv.1] at hshadow
  exact (hshadow.resolve_left (by simp)).resolve_right fun h => h

theorem stepVerify_of_returned (hv : s.verify = .returned) : s.stepVerify view v = none := by
  cases v <;> simp [stepVerify, hv]

theorem stepVerify_of_waiting (hv : s.verify = .waiting)
    (h : s.stepVerify view v = some s') : ∀ item ∈ s.inFlight, item.slot ≠ .new := by
  cases stepVerify_move h <;> simp_all

theorem Dying.not_flipped (h : Dying view schema id s)
    (hstep : s.stepVerify view v = some s') : s.flipped = false := by
  by_contra hne
  rw [stepVerify_of_returned (h.flipped (by simpa using hne))] at hstep
  cases hstep

section

variable {view : RebuildView} (hread : ReadsIncarnation view schema) (h : Dying view schema id s)
include hread h

theorem Dying.of_verify (hinv : ShadowInv view s') (hstep : s.stepVerify view v = some s')
    (hold : (s'.docs .old).get id = (s.docs .old).get id)
    (hnew : ∀ d, (s'.docs .new).get id = some d → OfRow schema (s.last id) d)
    (hshadow : s.deletions id = .finished → s'.verify = .waiting ∨ (s'.docs .new).get id = none ∨
      Orphaned id s'.verify) : Dying view schema id s' := by
  obtain ⟨hframe, -, hitems⟩ := stepVerify_ok h.inv hstep
  have hf := h.not_flipped hstep
  have hf' : s'.flipped = false := hframe.flipped.trans hf
  refine ⟨hinv, fun slot d hd => ?_, ?_, fun item hitem hid => ?_, fun item hitem hslot => ?_,
    fun he => ?_, fun hdel => ?_, fun _ hfin => ?_⟩
  · rw [hframe.last]
    cases slot with
    | old => exact h.docs .old d (hold ▸ hd)
    | new => exact hnew d hd
  · rw [hframe.inFlight, hframe.last]
    exact h.flight
  · rw [hframe.last]
    rcases hitems item hitem with hitem | ⟨embeds, hdoc⟩
    · exact h.items item hitem hid
    · subst hid
      obtain ⟨r, hr, -⟩ := composeEmbedding_stamped hdoc
      rw [(h.inv.last _ r hr).1]
      exact composeEmbedding_ofRow hread hdoc hr
  · rw [hframe.inFlight] at hitem
    rcases h.backfill item hitem hslot with he | hw
    · rw [hf] at he
      cases he
    · exact absurd hslot (stepVerify_of_waiting hw hstep item hitem)
  · rw [hf'] at he
    cases he
  · rw [BeforeDeletion, hframe.deletions] at hdel
    have hserved : ∀ t : ShadowState, t.flipped = false → t.served = .old := fun t ht => by
      rw [ShadowState.served, ht]
      rfl
    rw [hserved s' hf', hold, ← hserved s hf]
    exact h.served hdel
  · exact hshadow (hframe.deletions ▸ hfin)

/-- **A step of the verification.** -/
theorem Dying.verify (htimely : Timely id s (.verify v)) (hinv : ShadowInv view s')
    (hstep : s.stepVerify view v = some s') : Dying view schema id s' := by
  have hshadow : ∀ phase, s.verify = phase → phase ≠ .waiting → s.deletions id = .finished →
      (s.docs .new).get id = none ∨ Orphaned id phase := by
    rintro phase rfl hw hfin
    exact (h.shadow (h.not_flipped hstep) hfin).resolve_left hw
  have hmove := stepVerify_move hstep
  -- most steps leave the documents alone, and an orphan an orphan
  have hphase : ∀ {phase phase'}, s.verify = phase → phase ≠ .waiting →
      s' = { s with verify := phase' } →
      (s.deletions id = .finished → Orphaned id phase → Orphaned id phase') →
      Dying view schema id s' := by
    rintro phase phase' hv hw rfl hs
    exact h.of_verify hread hinv hstep rfl (h.docs .new)
      fun hfin => .inr ((hshadow phase hv hw hfin).imp_right (hs hfin))
  cases hmove with
  | snapshot hw =>
    refine h.of_verify hread hinv hstep rfl (h.docs .new) fun _ => .inr ?_
    by_cases hget : (s.docs .new).get id = none
    · exact .inl hget
    · rw [get_eq_none_iff, not_not] at hget
      exact .inr hget
  | scan hv =>
    refine hphase hv nofun rfl fun hfin horphan => ?_
    refine ⟨horphan, fun hmem => ?_⟩
    have hrow := ViewRoot.row_of_mem_rows hmem
    rw [(h.inv.deleting id (by rw [hfin]; nofun)).2] at hrow
    cases hrow
  | @row row rows batch diverged ids hv =>
    refine hphase hv nofun rfl fun hfin ⟨hmem, hrows⟩ => ?_
    rw [map_cons, mem_cons, not_or] at hrows
    have hmem' : id ∈ ids.filter (· ≠ row.1) := by simp [hmem, hrows.1]
    split_ifs
    · exact ⟨hmem', hrows.2⟩
    · exact ⟨hmem', hrows.2⟩
  | @applyDiverged i item doc todo ids items hv hitem ht =>
    have hmem : item ∈ s.verify.items := by
      rw [hv]
      exact mem_of_getElem? hitem
    by_cases hid : item.1 = id
    · subst hid
      obtain ⟨d', hput, hd'⟩ := ofRow_of_write hread (h.docs .new) (h.items item hmem rfl) ht
      have hold : ((s.put .new item.1 doc).docs .old).get item.1 = (s.docs .old).get item.1 :=
        (s.get_put ..).trans (if_neg fun he => nomatch he.1)
      refine h.of_verify hread hinv hstep hold (fun d hd => ?_) fun hfin => ?_
      · rw [hput, get_put, if_pos ⟨rfl, rfl⟩] at hd
        cases hd
        exact hd'
      · refine absurd (htimely item ?_ rfl) (not_beforeDeletion (.inr hfin))
        rw [hv]
        exact hitem
    · have hkeep : ∀ slot, ((s.put .new item.1 doc).docs slot).get id = (s.docs slot).get id :=
        fun _ => get_put_of_ne hid
      refine h.of_verify hread hinv hstep (hkeep .old) (fun d hd => ?_) fun hfin => ?_
      · exact h.docs .new d ((hkeep .new).symm.trans hd)
      · exact .inr ((hshadow _ hv nofun hfin).imp_left (hkeep .new).trans)
  | @deleteOrphan i j orphans hv hj =>
    have hold : ((s.put .new j none).docs .old).get id = (s.docs .old).get id :=
      (s.get_put ..).trans (if_neg fun he => nomatch he.1)
    by_cases hid : j = id
    · subst hid
      have hnone : ((s.put .new j none).docs .new).get j = none :=
        (s.get_put ..).trans (if_pos ⟨rfl, rfl⟩)
      exact h.of_verify hread hinv hstep hold (fun d hd => nomatch hnone.symm.trans hd)
        fun _ => .inr (.inl hnone)
    · have hkeep : ((s.put .new j none).docs .new).get id = (s.docs .new).get id :=
        get_put_of_ne hid
      refine h.of_verify hread hinv hstep hold (fun d hd => ?_) fun hfin => ?_
      · exact h.docs .new d (hkeep.symm.trans hd)
      · refine .inr ((hshadow _ hv nofun hfin).imp hkeep.trans fun hmem => ?_)
        refine (mem_eraseIdx_or hmem i).resolve_right fun he => ?_
        cases hj.symm.trans he
        exact hid rfl
  | finish hv => exact hphase hv nofun rfl fun _ horphan => nomatch horphan
  | repair hv => exact hphase hv nofun rfl fun _ horphan => horphan.1
  | flush hv | check hv | chunk hv | composeDiverged hv | reverse hv =>
    exact hphase hv nofun rfl fun _ horphan => horphan

/-- **One step.** -/
theorem Dying.step (ha : Evolves view s a ∧ Timely id s a)
    (hstep : (shadowMachine view).step s a = some s') : Dying view schema id s' := by
  have hinv := h.inv.step ha.1 hstep
  cases a with
  | commit db =>
    cases hstep
    exact h.commit ha.1 hinv
  | compose slot j embeds => exact h.compose hread hinv hstep
  | bulkApply i => exact h.bulkApply hread ha.2 hinv hstep
  | project slot j p =>
    simp only [shadowMachine] at hstep
    split_ifs at hstep
    obtain ⟨doc, -, rfl⟩ := write_ok hstep
    exact h.frame_of_ne hinv rfl (fun _ => .inl (get_put_of_ne ha.2)) rfl rfl rfl rfl
  | stampTombstone j => exact h.stampTombstone hinv hstep
  | deleteActive j => exact h.deleteActive hinv hstep
  | deleteShadow j => exact h.deleteShadow hinv hstep
  | remove slot j =>
    obtain ⟨hj, rfl⟩ := Option.ite_some_none_eq_some.1 hstep
    refine h.frame_of_ne hinv rfl (fun slot' => ?_) rfl rfl rfl rfl
    rw [get_put]
    split_ifs
    · exact .inr rfl
    · exact .inl rfl
  | verify v => exact h.verify hread ha.2 hinv hstep
  | flip => exact h.flip ha.2 hinv hstep

end

end

/-- **A deleted root stays deleted**, in every run in which the rebuilds in place and the repairs of
the verification write the root before its deletion begins to delete documents, and the slots are
not switched between the two deletes: once its deletion is through the slot readers are served from
has no document of it, and neither has a verified shadow. -/
theorem deleted_stays_deleted {view : RebuildView} {schema : TableSchema}
    (hread : ReadsIncarnation view.toEmbeddingView schema) {id : String} {s₀ s : ShadowState}
    (hbegins : Begins view.toEmbeddingView s₀) (hflipped : s₀.flipped = false)
    (hflight : ∀ item ∈ s₀.inFlight, item.slot = .old ∧
      (item.id = id → OfRow schema (s₀.last id) item.doc))
    (hdoc : ∀ d, (s₀.docs .old).get id = some d → OfRow schema (s₀.last id) d)
    (hpending : BeforeDeletion s₀ id) {actions : List ShadowAction}
    (halong : (shadowMachine view.toEmbeddingView).Along
      (fun s a => Evolves view.toEmbeddingView s a ∧ Timely id s a) s₀ actions)
    (hrun : (shadowMachine view.toEmbeddingView).run s₀ actions = some s)
    (hdeleted : s.deletions id = .finished) :
    (s.docs s.served).get id = none ∧ (s.verify = .returned → (s.docs .new).get id = none) := by
  have hstart : Dying view schema id s₀ := by
    refine ⟨hbegins.inv, fun slot d hd => ?_, fun item hitem => (hflight item hitem).2, ?_,
      fun item hitem hnew => ?_, ?_, fun hb => absurd hpending hb, fun _ hfin => ?_⟩
    · cases slot with
      | old => exact hdoc d hd
      | new =>
        rw [hbegins.shadow] at hd
        cases hd
    · rw [hbegins.verify]
      nofun
    · exact .inr hbegins.verify
    · rw [hflipped]
      nofun
    · exact absurd hpending (not_beforeDeletion (.inr hfin))
  have hend : Dying view schema id s :=
    Machine.run_invariant (fun _ _ _ h ha hstep => h.step hread ha hstep) hstart halong hrun
  have hserved := hend.served (not_beforeDeletion (.inr hdeleted))
  refine ⟨hserved, fun hret => ?_⟩
  cases hf : s.flipped with
  | true =>
    rw [served, hf] at hserved
    exact hserved
  | false =>
    have hshadow := hend.shadow hf hdeleted
    rw [hret] at hshadow
    exact (hshadow.resolve_left nofun).resolve_right fun h => h

theorem readsIncarnation_customers : ReadsIncarnation customersRebuilt customers :=
  ⟨rfl, by decide, by decide, by decide⟩

theorem row_customers_gone (id : String) : customersRebuilt.root.row {} id = none := rfl

theorem evolves_customers {actions : List ShadowAction}
    (h : ∀ a ∈ actions, ∀ t, Evolves customersRebuilt t a) :
    (shadowMachine customersRebuilt).Along
      (Evolves customersRebuilt) customersBegin actions :=
  (Machine.along_of_forall (P := fun a => ∀ t, Evolves customersRebuilt t a) h
    customersBegin).mono fun t _ h => h t

/-- A backfill brings a deleted customer back to the shadow, and the verification deletes it. -/
theorem backfilled_customer_deleted :
    ∃ s ∈ (shadowMachine customersRebuilt.toEmbeddingView).run customersBegin
      [.compose .new "b" [], .commit {}, .stampTombstone "b", .deleteActive "b", .deleteShadow "b",
        .bulkApply 0, .verify .snapshot, .verify .scan, .verify .flush, .verify .repair,
        .verify .reverse, .verify (.deleteOrphan 0), .verify .finish, .flip],
      (s.docs s.served).get "b" = none := by
  refine Machine.exists_run (fun s => s.deletions "b" = .finished) (by decide +kernel)
    fun s hs hdeleted => (deleted_stays_deleted readsIncarnation_customers begins_customers rfl
      nofun nofun (.inl rfl) (Machine.Along.and (evolves_customers ?_) ?_) hs hdeleted).1
  · simp [Evolves, row_customers_gone]
  · decide +kernel

/-- **A deleted customer comes back.**  A rebuild in place writes it after its deletion; or a repair
does, which the reverse pass does not see; or the slots are switched when it has been deleted from
the slot that served reads until then and not from the other. -/
theorem deleted_customer_comes_back :
    ([
      [.compose .old "b" [], .commit {}, .stampTombstone "b", .deleteActive "b", .deleteShadow "b",
        .bulkApply 0],
      [.verify .snapshot, .verify .scan, .verify .row, .verify .row, .verify .flush, .verify .check,
        .verify .check, .verify .repair, .verify .chunk, .verify (.composeDiverged []),
        .verify (.composeDiverged []), .commit {}, .stampTombstone "b", .deleteActive "b",
        .deleteShadow "b", .verify (.applyDiverged 0), .verify (.applyDiverged 0),
        .verify .reverse, .verify .finish, .flip],
      [.compose .new "b" [], .bulkApply 0, .verify .snapshot, .verify .scan, .verify .row,
        .verify .row, .commit {}, .verify .flush, .verify .check, .verify .check, .verify .repair,
        .verify .chunk, .verify (.composeDiverged []), .verify .reverse, .verify .finish,
        .stampTombstone "b", .deleteActive "b", .flip, .deleteShadow "b"]] :
          List (List ShadowAction)).Forall fun actions =>
      (shadowMachine customersRebuilt.toEmbeddingView).Along
        (Evolves customersRebuilt.toEmbeddingView) customersBegin actions ∧
      ∃ s ∈ (shadowMachine customersRebuilt.toEmbeddingView).run customersBegin actions,
        s.deletions "b" = .finished ∧ s.inFlight = [] ∧
        (s.verify = .waiting ∨ s.verify = .returned) ∧ (s.docs s.served).get "b" ≠ none := by
  rw [forall_iff_forall_mem]
  intro actions hmem
  constructor
  · refine evolves_customers ?_
    revert actions
    simp [Evolves, row_customers_gone]
  · revert actions
    decide +kernel

end Omnicore.Query
