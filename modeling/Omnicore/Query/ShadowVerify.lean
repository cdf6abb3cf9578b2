import Omnicore.Query.SharedBaseView
import Omnicore.Query.Watermarks

/-!
# Filling and verifying a shadow slot

A rebuild copies every root into a shadow slot while live events are applied to both slots.  The
backfill composes batches of roots and writes them later, from any number of workers.  Then the slot
is verified: its ids are read, the rows of the source are streamed against them in batches that
compare revisions, what is missing or behind is composed again, and the ids no row was streamed for
are deleted.  Writes, live events and the steps of the rebuild interleave in any way; composing a
root and writing it are different steps, and so are the writes of a batch.

## Main definitions

* `RebuildView`, `composeEmbedding` : the documents of a view with embeds.
* `shadowMachine` : the two slots of a view during a rebuild.
* `Evolves` : a root lives once, and its revision never decreases.

## Main results

* `Covered.step` : a streamed row is on its way to a document, or has one.
* `shadow_complete` : what holds when the verification returns.
-/

namespace Omnicore.Query

open Omnicore.Core Write List AssocMap Function Machine SchemaDecl
open Option (map_eq_some_iff isSome_map isSome_iff_exists bind_eq_some_iff mem_toList
  ite_some_none_eq_some)

/-! ### Roots and their documents -/

/-- The keys of the documents of a view, embeds apart. -/
def ViewRoot.documentKeys : ViewRoot → List String
  | .entity schema => schema.documentKeys ++ schema.sharedBase.elim [] fun link =>
      Query.baseColumns link.base
  | .sharedBase base roles =>
    Query.baseColumns base ++ base.children.map ChildSchema.segment ++ roles.map RoleDef.segment

/-- A view whose documents have no reserved key and an id column of their own. -/
structure RebuildView extends EmbeddingView where
  keys_not_reserved : ∀ k ∈ root.documentKeys, k ∉ reservedKeys
  id_own : root.idColumn ∉ baseScope root ∧ root.idColumn ∉ toEmbeddingView.embedFields

instance : CoeOut RebuildView EmbeddingView := ⟨RebuildView.toEmbeddingView⟩

variable (view : EmbeddingView)

/-- The composition of a root, with what its embeds mirror. -/
def composeEmbedding (db : Database) (id : String) (embeds : Doc) : Option Doc :=
  (compose view.toViewDefinition db id).map fun doc =>
    doc.setAll (embeds.filter fun p => p.1 ∈ view.embedFields ∧ isData p.1)

/-- The revision of a root row, and the instant of its creation where the schema declares one. -/
structure RowStamp where
  revision : ℕ
  createdAt : Option Instant
  deriving DecidableEq, Repr

/-- The row of a root. -/
def ViewRoot.row (root : ViewRoot) (db : Database) (id : String) : Option RowStamp :=
  match root with
  | .entity schema => (db.root schema.table id).map fun r =>
      ⟨r.revision, schema.createdAt.bind fun _ => r.createdAt⟩
  | .sharedBase base _ => (db.base id).map fun b =>
      ⟨b.revision, base.createdAt.bind fun _ => b.createdAt⟩

/-- The ids and revisions of all roots. -/
def ViewRoot.rows (root : ViewRoot) (db : Database) : List (String × ℕ) :=
  match root with
  | .entity schema => (db.roots schema.table).rows.map fun r => (r.id, r.revision)
  | .sharedBase _ _ => db.bases.rows.map fun b => (b.id, b.revision)

theorem ViewRoot.mem_rows {root : ViewRoot} {db : Database} {id : String} {r : RowStamp}
    (h : root.row db id = some r) : (id, r.revision) ∈ root.rows db := by
  cases root with
  | entity schema | sharedBase base roles =>
    obtain ⟨x, hx, rfl⟩ := map_eq_some_iff.1 h
    obtain ⟨hmem, hid⟩ := Table.find_eq_some_iff.1 hx
    exact mem_map.2 ⟨x, hmem, by rw [← hid]; rfl⟩

/-! ### The machine -/

/-- The collection that serves reads when the rebuild begins, and the one it fills. -/
inductive Slot where
  | old
  | new
  deriving DecidableEq, Repr

/-- A root composed by a batch, to be written to a slot. -/
structure BulkItem where
  slot : Slot
  id : String
  doc : Doc
  deriving DecidableEq

/-- Where the deletion of a root stands. -/
inductive DeletionPhase where
  | pending
  | stamped
  | activeDeleted
  | finished
  deriving DecidableEq, Repr

/-- Where the verification of the shadow stands, with its local variables. -/
inductive VerifyPhase where
  | waiting
  | snapshotted (shadowIDs : List String)
  /-- The rows still to come, the batch, what is left of the batch being compared, and the ids that
  are missing or behind. -/
  | scanning (rows batch checking : List (String × ℕ)) (diverged shadowIDs : List String)
  /-- The ids still to be composed, those of this chunk first, and what is composed of it. -/
  | repairing (todo chunk : List String) (items : List (String × Doc)) (shadowIDs : List String)
  | reversing (orphans : List String)
  | returned
  deriving DecidableEq

/-- The rows, the two slots of a view, and the rebuild at work on them.  `last` is the latest row a
root has had, and `removed` what the reverse pass has deleted. -/
structure ShadowState where
  db : Database := {}
  last : String → Option RowStamp := fun _ => none
  docs : Slot → AssocMap String Doc := fun _ => []
  flipped : Bool := false
  inFlight : List BulkItem := []
  verify : VerifyPhase := .waiting
  deletions : String → DeletionPhase := fun _ => .pending
  removed : List String := []

open ShadowState

/-- The steps of the verification. -/
inductive VerifyAction where
  | snapshot
  | scan
  | row
  | flush
  | check
  | repair
  | chunk
  | composeDiverged (embeds : Doc)
  | applyDiverged (i : ℕ)
  | reverse
  | deleteOrphan (i : ℕ)
  | finish

inductive ShadowAction where
  /-- A transaction of the command side. -/
  | commit (db : Database)
  /-- A batch of the backfill or of a rebuild in place composes a root. -/
  | compose (slot : Slot) (id : String) (embeds : Doc)
  /-- A composed root is written. -/
  | bulkApply (i : ℕ)
  /-- A live event is applied to one of the slots. -/
  | project (slot : Slot) (id : String) (p : Pipeline)
  /-- The deletion of a root: its record, then the document in either slot. -/
  | stampTombstone (id : String)
  | deleteActive (id : String)
  | deleteShadow (id : String)
  /-- A composer or an upsert has found the root gone. -/
  | remove (slot : Slot) (id : String)
  | verify (a : VerifyAction)
  | flip

/-- The ids of one batch, repair or deletion of the verification. -/
def verifyReconcileChunk : ℕ := 1000

/-- An event of the document's own aggregate, or a snapshot, creates the document. -/
def Pipeline.upserts : Pipeline → Bool
  | .payload _ | .consult _ => true
  | .fanOut _ => false

namespace ShadowState

variable (s : ShadowState)

/-- The slot readers are served from. -/
def served : Slot := if s.flipped then .new else .old

/-- The revision of a stored document, zero for one without. -/
def revisionByID (id : String) : Option ℤ :=
  ((s.docs .new).get id).map fun d => watermarkOf (d.get docRevisionField)

/-- The document of a row is missing or older than the row. -/
def isBehind (row : String × ℕ) : Bool :=
  match s.revisionByID row.1 with
  | some got => got < row.2
  | none => true

variable (slot : Slot)

/-- Replace the document of an id in a slot. -/
def put (id : String) (doc : Option Doc) : ShadowState :=
  { s with docs := update s.docs slot ((s.docs slot).put id doc) }

/-- Run a pipeline on the document of an id. -/
def write (id : String) (stages : List SetStage) (upsert : Bool) : Option ShadowState :=
  match applyProjection ((s.docs slot).get id) id stages upsert with
  | .ok doc => some (s.put slot id doc)
  | .error _ => none

/-- Delete a document of the life that has ended. -/
def deleteGuarded (id : String) : ShadowState :=
  match s.last id with
  | some r => s.put slot id (Query.deleteGuarded ((s.docs slot).get id) r.revision
      (r.createdAt.elim 0 PNat.val))
  | none => s

/-- The next step of the verification. -/
def stepVerify (view : EmbeddingView) (s : ShadowState) : VerifyAction → Option ShadowState
  | .snapshot =>
    if s.verify = .waiting ∧ ∀ item ∈ s.inFlight, item.slot ≠ .new then
      some { s with verify := .snapshotted (s.docs .new).keys }
    else none
  | .scan =>
    match s.verify with
    | .snapshotted ids => some { s with verify := .scanning (view.root.rows s.db) [] [] [] ids }
    | _ => none
  | .row =>
    match s.verify with
    | .scanning (row :: rows) batch [] diverged ids =>
      let batch := batch ++ [row]
      let ids := ids.filter (· ≠ row.1)
      some { s with verify :=
        if verifyReconcileChunk ≤ batch.length then .scanning rows [] batch diverged ids
        else .scanning rows batch [] diverged ids }
    | _ => none
  | .flush =>
    match s.verify with
    | .scanning [] batch [] diverged ids =>
      some { s with verify := .scanning [] [] batch diverged ids }
    | _ => none
  | .check =>
    match s.verify with
    | .scanning rows batch (row :: checking) diverged ids =>
      let diverged := if s.isBehind row then diverged ++ [row.1] else diverged
      some { s with verify := .scanning rows batch checking diverged ids }
    | _ => none
  | .repair =>
    match s.verify with
    | .scanning [] [] [] diverged ids => some { s with verify := .repairing diverged [] [] ids }
    | _ => none
  | .chunk =>
    match s.verify with
    | .repairing todo [] [] ids =>
      let chunk := todo.take verifyReconcileChunk
      some { s with verify := .repairing (todo.drop verifyReconcileChunk) chunk [] ids }
    | _ => none
  | .composeDiverged embeds =>
    match s.verify with
    | .repairing todo (id :: chunk) items ids =>
      let items := items ++ ((composeEmbedding view s.db id embeds).map (id, ·)).toList
      some { s with verify := .repairing todo chunk items ids }
    | _ => none
  | .applyDiverged i =>
    match s.verify with
    | .repairing todo [] items ids =>
      items[i]?.bind fun item =>
        (s.write .new item.1 (consultStages view item.2) true).map fun s =>
          { s with verify := .repairing todo [] (items.eraseIdx i) ids }
    | _ => none
  | .reverse =>
    match s.verify with
    | .repairing [] [] [] ids => some { s with verify := .reversing ids }
    | _ => none
  | .deleteOrphan i =>
    match s.verify with
    | .reversing orphans => orphans[i]?.map fun id =>
        { s.put .new id none with
          verify := .reversing (orphans.eraseIdx i)
          removed := s.removed ++ [id] }
    | _ => none
  | .finish => if s.verify = .reversing [] then some { s with verify := .returned } else none

end ShadowState

/-- The two slots of a view during a rebuild. -/
def shadowMachine : Machine ShadowState ShadowAction where
  step s a :=
    match a with
    | .commit db => some { s with
        db := db
        last := fun id => (view.root.row db id).or (s.last id) }
    | .compose slot id embeds =>
      -- the shadow is filled before it is verified, and rebuilt in place once it serves reads
      if slot = .old ∨ s.flipped ∨ s.verify = .waiting then
        some { s with inFlight :=
          s.inFlight ++ ((composeEmbedding view s.db id embeds).map (⟨slot, id, ·⟩)).toList }
      else none
    | .bulkApply i =>
      s.inFlight[i]?.bind fun item =>
        (s.write item.slot item.id (consultStages view item.doc) true).map fun s' =>
          { s' with inFlight := s.inFlight.eraseIdx i }
    | .project slot id p =>
      if p.upserts = false ∨ (s.last id).isSome then s.write slot id (p.stages view) p.upserts
      else none
    | .stampTombstone id =>
      if s.deletions id = .pending ∧ (s.last id).isSome ∧ view.root.row s.db id = none then
        some { s with deletions := update s.deletions id .stamped }
      else none
    | .deleteActive id =>
      if s.deletions id = .stamped then
        some { s.deleteGuarded s.served id with
          deletions := update s.deletions id .activeDeleted }
      else none
    | .deleteShadow id =>
      if s.deletions id = .activeDeleted then
        let s := if s.flipped then s else s.deleteGuarded .new id
        some { s with deletions := update s.deletions id .finished }
      else none
    | .remove slot id =>
      if (s.last id).isSome ∧ view.root.row s.db id = none then some (s.put slot id none) else none
    | .flip =>
      if s.verify = .returned ∧ s.flipped = false then some { s with flipped := true } else none
    | .verify a => s.stepVerify view a

/-! ### Composed roots -/

section

variable {view : RebuildView} {db : Database} {id : String} {doc : Doc}

variable {schema : SchemaDecl} {k : String}

theorem RebuildView.not_key (hk : k ∈ reservedKeys) :
    k ∉ view.root.documentKeys := fun hmem => view.keys_not_reserved k hmem hk

variable {children : List ChildSchema} {r : RootRow}

theorem get_mergeChildren {ownerID : String} {archived : Bool}
    (hk : k ∉ children.map ChildSchema.segment) :
    (mergeChildren db children ownerID archived doc).get k = doc.get k :=
  get_foldl_set _ _ _ _ hk

theorem mem_keys_mergeChildren {ownerID : String} {archived : Bool} (hk : k ∈ doc.keys) :
    k ∈ (mergeChildren db children ownerID archived doc).keys :=
  mem_keys_foldl_set _ _ _ hk

theorem get_rootRowDoc_revision (hrev : docRevisionField ∉ schema.ownColumns) :
    (rootRowDoc schema r).get docRevisionField = some (.int r.revision) := by
  rw [rootRowDoc, get_append, (get_eq_none_iff ..).2]
  · rfl
  · intro hmem
    refine hrev ?_
    simp only [AssocMap.keys, map_append, map_cons, map_map, readFields,
      comp_def, map_id', cons_append, append_assoc] at hmem
    simp only [ownColumns, cons_append, append_assoc, mem_cons, mem_append] at hmem ⊢
    tauto

theorem get_mergeSharedBase
    (hk : ∀ link ∈ schema.sharedBase, k ∉ (baseColumns link.base).filter (· ∉ sharedBaseSkipSet
      link.base schema)) (hne : k ≠ docBaseRevisionField) :
    (mergeSharedBase db schema r doc).get k = doc.get k := by
  rw [mergeSharedBase]
  split
  · rfl
  · rename_i link hlink
    split
    · rfl
    · rename_i b hb
      refine get_setAll_of_not_mem _ fun hmem => ?_
      rw [AssocMap.keys_append, keys_filter_baseRowDoc, mem_append] at hmem
      exact hmem.elim (hk link hlink) fun hmem => hne (mem_singleton.1 hmem)

theorem mem_keys_mergeSharedBase (hk : k ∈ doc.keys) :
    k ∈ (mergeSharedBase db schema r doc).keys := by
  rw [mergeSharedBase]
  split
  · exact hk
  · split
    · exact hk
    · exact mem_keys_setAll.2 (.inl hk)

/-- The watermark of a root's composition is the revision of its row, and the id is there. -/
theorem compose_stamped (h : compose view.toViewDefinition db id = some doc) :
    ∃ r, view.root.row db id = some r ∧ doc.get docRevisionField = some (.int r.revision) ∧
      view.root.idColumn ∈ doc.keys := by
  have hrev := view.not_key (by decide : docRevisionField ∈ reservedKeys)
  cases hroot : view.root with
  | entity schema =>
    simp only [compose, hroot, map_eq_some_iff] at h
    obtain ⟨r, hr, rfl⟩ := h
    simp only [hroot, ViewRoot.documentKeys, documentKeys, allChildren,
      map_append, mem_append, not_or] at hrev
    obtain ⟨⟨⟨hown, -⟩, hchild, hbaseChild⟩, hbase⟩ := hrev
    refine ⟨⟨r.revision, schema.createdAt.bind fun _ => r.createdAt⟩, ?_, ?_, ?_⟩
    · rw [ViewRoot.row, (Option.filter_eq_some_iff.1 hr).1]
      rfl
    · rw [get_mergeChildren hchild, get_mergeChildren hbaseChild,
        get_mergeSharedBase (fun link hlink hmem => hbase ?_) (by decide),
        get_rootRowDoc_revision hown]
      rw [Option.mem_def.1 hlink]
      exact mem_of_mem_filter hmem
    · refine mem_keys_mergeChildren (mem_keys_mergeChildren (mem_keys_mergeSharedBase ?_))
      simp [rootRowDoc, AssocMap.keys, ViewRoot.idColumn]
  | sharedBase base roles =>
    simp only [compose, hroot, map_eq_some_iff] at h
    obtain ⟨b, hb, rfl⟩ := h
    simp only [hroot, ViewRoot.documentKeys, mem_append, not_or] at hrev
    obtain ⟨⟨hbase, hchild⟩, hrole⟩ := hrev
    refine ⟨⟨b.revision, base.createdAt.bind fun _ => b.createdAt⟩, ?_, ?_, ?_⟩
    · rw [ViewRoot.row, (Option.filter_eq_some_iff.1 hb).1]
      rfl
    · rw [get_foldl_set _ _ _ _ hrole, get_mergeChildren hchild, get_append,
        (get_eq_none_iff ..).2 (by rwa [keys_baseRowDoc])]
      rfl
    · refine mem_keys_foldl_set _ _ _ (mem_keys_mergeChildren ?_)
      rw [AssocMap.keys_append, keys_baseRowDoc]
      simp [baseColumns, ViewRoot.idColumn]

theorem compose_isSome (hkeep : view.deleteOnArchive = false)
    (h : (view.root.row db id).isSome) : (compose view.toViewDefinition db id).isSome := by
  cases hroot : view.root with
  | entity schema | sharedBase base roles =>
    rw [hroot, ViewRoot.row, isSome_map] at h
    obtain ⟨r, hr⟩ := isSome_iff_exists.1 h
    simp [compose, hroot, hr, hkeep]

theorem composeEmbedding_stamped {embeds : Doc}
    (h : composeEmbedding view db id embeds = some doc) :
    ∃ r, view.root.row db id = some r ∧ doc.get docRevisionField = some (.int r.revision) ∧
      view.root.idColumn ∈ doc.keys := by
  obtain ⟨d, hd, rfl⟩ := map_eq_some_iff.1 h
  obtain ⟨r, hr, hrev, hid⟩ := compose_stamped hd
  refine ⟨r, hr, ?_, mem_keys_setAll.2 (.inl hid)⟩
  rw [get_setAll_of_not_mem, hrev]
  intro hmem
  obtain ⟨p, hp, he⟩ := mem_map.1 hmem
  have hdata := (mem_filter.1 hp).2
  simp only [he, decide_eq_true_eq] at hdata
  exact absurd hdata.2 (by decide)

theorem ownData_ne_nil (hid : view.root.idColumn ∈ doc.keys) : ownData view doc ≠ [] := by
  intro hnil
  have hkey : view.root.idColumn ∈ view.root.documentKeys := by
    cases view.root with
    | entity schema => simp [ViewRoot.idColumn, ViewRoot.documentKeys, documentKeys, ownColumns]
    | sharedBase base roles => simp [ViewRoot.idColumn, ViewRoot.documentKeys, Query.baseColumns]
  have hdata : isData view.root.idColumn = true := by
    have hnot := view.keys_not_reserved _ hkey
    simp only [reservedKeys, mem_cons, not_or] at hnot
    simp [isData, docRevisionField, docBaseRevisionField, hnot.1, hnot.2.1, hnot.2.2.1]
  have hget := eq_nil_iff_get.1 hnil view.root.idColumn
  rw [ownData, get_filter_dataFields
    fun k => decide (k ∉ view.embedFields ∧ k ∉ baseScope view.root)] at hget
  simp only [view.id_own, hdata, not_false_iff, and_self, decide_true, if_true] at hget
  exact (get_eq_none_iff ..).1 hget hid

end

/-! ### The watermark under a snapshot -/

section

variable {view : EmbeddingView} {d d' doc : Doc}

theorem consultStages_revision (h : runStages d (consultStages view doc) = .ok d') :
    ∃ d1 d2, d1.get docRevisionField = d.get docRevisionField ∧
      runStages d1 (if ownData view doc = [] then [] else
        [scopeStage docRevisionField (ownData view doc) (watermarkOf (doc.get docRevisionField))
          (ownShape view.root)]) = .ok d2 ∧
      d'.get docRevisionField = d2.get docRevisionField := by
  have hmark : ∀ f : String → Bool,
      get ((dataFields doc).filter fun p => f p.1) docRevisionField = none := fun f => by
    rw [get_filter_dataFields, if_neg fun hd => absurd hd.2 (by decide)]
  obtain ⟨d2, h2, h3⟩ := runStages_append_ok h
  obtain ⟨d1, h1, h2⟩ := runStages_append_ok h2
  refine ⟨d1, d2, (embed_ok h1).2 _ (hmark fun k => decide (k ∈ view.embedFields)), h2, ?_⟩
  rcases runStages_unless h3 with ⟨-, rfl⟩ | ⟨-, happly⟩
  · rfl
  · exact scopeStage_get_of_not_mem happly
      (hmark fun k => decide (k ∉ view.embedFields ∧ k ∈ baseScope view.root)) (by decide)

theorem ownData_revision : (ownData view doc).get docRevisionField = none := by
  rw [ownData, get_filter_dataFields
    fun k => decide (k ∉ view.embedFields ∧ k ∉ baseScope view.root),
    if_neg fun hd => absurd hd.2 (by decide)]

theorem consultStages_advances (h : runStages d (consultStages view doc) = .ok d') :
    Advances (d.get docRevisionField) (d'.get docRevisionField) := by
  obtain ⟨d1, d2, h1, h2, h3⟩ := consultStages_revision h
  rw [h3, ← h1]
  rcases runStages_unless h2 with ⟨-, rfl⟩ | ⟨-, happly⟩
  · exact .inl rfl
  · by_cases hrev : watermarkOf (doc.get docRevisionField) ≤ 0
    · rw [scopeStage, if_pos hrev] at happly
      refine .inl (SetStage.get_of_apply happly ?_)
      rw [get_map _ fun _ v => Expr.lit v, ownData_revision]
      rfl
    · exact scopeStage_advances happly (not_le.1 hrev) ownData_revision

theorem consultStages_reaches {n : ℕ} (hn : doc.get docRevisionField = some (.int n)) (hpos : 0 < n)
    (hown : ownData view doc ≠ []) (hd : Watermarked d docRevisionField)
    (h : runStages d (consultStages view doc) = .ok d') : AtLeast (d'.get docRevisionField) n := by
  obtain ⟨d1, d2, h1, h2, h3⟩ := consultStages_revision h
  rw [if_neg hown] at h2
  have hrev : (0 : ℤ) < watermarkOf (doc.get docRevisionField) := by
    rw [hn, watermarkOf]
    omega
  have hd1 : Watermarked d1 docRevisionField := by
    rw [Watermarked, h1]
    exact hd
  have hmark := scopeStage_watermark hrev hd1 (runStages_singleton h2) ownData_revision
  rw [h3, hmark, hn]
  exact ⟨_, rfl, le_max_right ..⟩

end

/-! ### What a step does to a document -/

variable (s : ShadowState)

/-- A root lives once: a row of one that has had a row is that row, at the same revision or a later
one.  Live events are those of the view. -/
def Evolves : ShadowAction → Prop
  | .commit db => ∀ id r', view.root.row db id = some r' → 0 < r'.revision ∧
      ∀ r, s.last id = some r → (view.root.row s.db id).isSome ∧ r.revision ≤ r'.revision ∧
        r.createdAt = r'.createdAt
  | .project _ _ p => p.Fits view
  | _ => True

/-- The ids of the shadow no row has been streamed for yet. -/
def VerifyPhase.unmatched : VerifyPhase → List String
  | .snapshotted ids | .scanning _ _ _ _ ids | .repairing _ _ _ ids | .reversing ids => ids
  | .waiting | .returned => []

/-- The roots composed by the repair. -/
def VerifyPhase.items : VerifyPhase → List (String × Doc)
  | .repairing _ _ items _ => items
  | _ => []

/-- What a step does to one document of the shadow. -/
inductive DocMove (view : EmbeddingView) (s s' : ShadowState) (id : String) : Prop
  | same (h : (s'.docs .new).get id = (s.docs .new).get id)
  | written {d' : Doc} (h : (s'.docs .new).get id = some d')
      (hknown : ((s.docs .new).get id).isSome ∨ (s.last id).isSome)
      (hadv : Advances (((s.docs .new).get id).bind (·.get docRevisionField))
        (d'.get docRevisionField))
  | deleted (h : (s'.docs .new).get id = none)
      (hgone : view.root.row s.db id = none ∨
        ∃ orphans, s.verify = .reversing orphans ∧ id ∈ orphans)

/-- What the composed roots satisfy. -/
structure ShadowInv (view : EmbeddingView) (s : ShadowState) : Prop where
  last : ∀ id r, view.root.row s.db id = some r → s.last id = some r ∧ 0 < r.revision
  marked : ∀ id d, (s.docs .new).get id = some d →
    Watermarked d docRevisionField ∧ (s.last id).isSome
  inFlight : ∀ item ∈ s.inFlight, (s.last item.id).isSome
  items : ∀ item ∈ s.verify.items, (s.last item.1).isSome
  deleting : ∀ id, s.deletions id ≠ .pending → (s.last id).isSome ∧ view.root.row s.db id = none

section

variable {view : EmbeddingView} {s s' : ShadowState} {a : ShadowAction} {id : String}

theorem ShadowState.get_put (s : ShadowState) (slot slot' : Slot) (id id' : String)
    (doc : Option Doc) : ((s.put slot id doc).docs slot').get id' =
      if slot = slot' ∧ id = id' then doc else (s.docs slot').get id' := by
  by_cases hslot : slot = slot'
  · subst hslot
    simp [put, AssocMap.get_put]
  · simp [put, update_of_ne (Ne.symm hslot), hslot]

variable {slot : Slot}

theorem ShadowState.write_ok {stages : List SetStage} {upsert : Bool}
    (h : s.write slot id stages upsert = some s') :
    ∃ doc, applyProjection ((s.docs slot).get id) id stages upsert = .ok doc ∧
      s' = s.put slot id doc := by
  rw [write] at h
  split at h
  · rename_i doc hdoc
    exact ⟨doc, hdoc, (Option.some.inj h).symm⟩
  · cases h

variable {j : String}

/-- **A pipeline on one document** writes it, or finds nothing to write to. -/
theorem docMove_write {stages : List SetStage} {upsert : Bool}
    (h : s.write slot j stages upsert = some s')
    (hadv : ∀ d d', runStages d stages = .ok d' →
      Advances (d.get docRevisionField) (d'.get docRevisionField))
    (hknown : upsert = true → (s.last j).isSome) (id : String) : DocMove view s s' id := by
  obtain ⟨doc, hdoc, rfl⟩ := write_ok h
  by_cases hid : slot = .new ∧ j = id
  · obtain ⟨rfl, rfl⟩ := hid
    have hget : ((s.put .new j doc).docs .new).get j = doc := by
      rw [get_put, if_pos ⟨rfl, rfl⟩]
    rcases applyProjection_ok hdoc with ⟨hnone, -, rfl⟩ | ⟨hup, d', rfl, hrun⟩
    · exact .same (hget.trans hnone.symm)
    · have hadv := hadv _ d' hrun
      cases hstored : (s.docs .new).get j with
      | none =>
        rw [hstored] at hadv
        exact .written hget (.inr (hknown (hup hstored))) (hstored ▸ hadv)
      | some d =>
        rw [hstored] at hadv
        exact .written hget (.inl (hstored ▸ rfl)) (hstored ▸ hadv)
  · refine .same ?_
    rw [get_put, if_neg hid]

/-- **A deletion** of a root that is gone. -/
theorem docMove_put_none {doc : Option Doc}
    (hdoc : doc = none ∨ doc = (s.docs slot).get j)
    (hgone : view.root.row s.db j = none ∨ ∃ orphans, s.verify = .reversing orphans ∧ j ∈ orphans)
    (hs' : s'.docs = (s.put slot j doc).docs) (id : String) : DocMove view s s' id := by
  by_cases hid : slot = .new ∧ j = id
  · obtain ⟨rfl, rfl⟩ := hid
    have hget : (s'.docs .new).get j = doc := by
      rw [hs', get_put, if_pos ⟨rfl, rfl⟩]
    rcases hdoc with rfl | hdoc
    · exact .deleted hget hgone
    · exact .same (hget.trans hdoc)
  · refine .same ?_
    rw [hs', get_put, if_neg hid]

theorem deleteGuarded_eq (doc : Option Doc) (rev createdAt : ℕ) :
    deleteGuarded doc rev createdAt = none ∨ deleteGuarded doc rev createdAt = doc := by
  cases doc with
  | none => exact .inl rfl
  | some d =>
    rw [deleteGuarded, Option.filter_some]
    split_ifs
    · exact .inr rfl
    · exact .inl rfl

theorem docMove_deleteGuarded (hgone : view.root.row s.db j = none) (slot : Slot) :
    DocMove view s (s.deleteGuarded slot j) id := by
  rw [ShadowState.deleteGuarded]
  split
  · exact docMove_put_none (deleteGuarded_eq ..) (.inl hgone) rfl id
  · exact .same rfl

/-- What the steps of the verification leave alone. -/
structure VerifyFrame (s s' : ShadowState) : Prop where
  db : s'.db = s.db
  last : s'.last = s.last
  flipped : s'.flipped = s.flipped
  inFlight : s'.inFlight = s.inFlight
  deletions : s'.deletions = s.deletions

theorem DocMove.congr {t : ShadowState} (h : DocMove view s t id)
    (hdocs : s'.docs = t.docs) : DocMove view s s' id := by
  cases h with
  | same h => exact .same (hdocs ▸ h)
  | written h hknown hadv => exact .written (hdocs ▸ h) hknown hadv
  | deleted h hgone => exact .deleted (hdocs ▸ h) hgone

/-- A step of the verification, by what it needs of the phase. -/
inductive VerifyMove (view : EmbeddingView) (s : ShadowState) :
    VerifyAction → ShadowState → Prop where
  | snapshot (hv : s.verify = .waiting) (hflight : ∀ item ∈ s.inFlight, item.slot ≠ .new) :
    VerifyMove view s .snapshot { s with verify := .snapshotted (s.docs .new).keys }
  | scan {ids : List String} (hv : s.verify = .snapshotted ids) :
    VerifyMove view s .scan { s with verify := .scanning (view.root.rows s.db) [] [] [] ids }
  | row {row : String × ℕ} {rows batch : List (String × ℕ)} {diverged ids : List String}
    (hv : s.verify = .scanning (row :: rows) batch [] diverged ids) :
    VerifyMove view s .row { s with
      verify :=
        if verifyReconcileChunk ≤ (batch ++ [row]).length then
          .scanning rows [] (batch ++ [row]) diverged (ids.filter (· ≠ row.1))
        else .scanning rows (batch ++ [row]) [] diverged (ids.filter (· ≠ row.1)) }
  | flush {batch : List (String × ℕ)} {diverged ids : List String}
    (hv : s.verify = .scanning [] batch [] diverged ids) :
    VerifyMove view s .flush { s with verify := .scanning [] [] batch diverged ids }
  | check {row : String × ℕ} {rows batch checking : List (String × ℕ)} {diverged ids : List String}
    (hv : s.verify = .scanning rows batch (row :: checking) diverged ids) :
    VerifyMove view s .check { s with
      verify := .scanning rows batch checking
        (if s.isBehind row then diverged ++ [row.1] else diverged) ids }
  | repair {diverged ids : List String} (hv : s.verify = .scanning [] [] [] diverged ids) :
    VerifyMove view s .repair { s with verify := .repairing diverged [] [] ids }
  | chunk {todo ids : List String} (hv : s.verify = .repairing todo [] [] ids) :
    VerifyMove view s .chunk { s with
      verify := .repairing (todo.drop verifyReconcileChunk) (todo.take verifyReconcileChunk)
        [] ids }
  | composeDiverged {embeds : Doc} {id : String} {todo chunk ids : List String}
    {items : List (String × Doc)} (hv : s.verify = .repairing todo (id :: chunk) items ids) :
    VerifyMove view s (.composeDiverged embeds) { s with
      verify := .repairing todo chunk
        (items ++ ((composeEmbedding view s.db id embeds).map (id, ·)).toList) ids }
  | applyDiverged {i : ℕ} {item : String × Doc} {doc : Option Doc} {todo ids : List String}
    {items : List (String × Doc)} (hv : s.verify = .repairing todo [] items ids)
    (hitem : items[i]? = some item)
    (ht : s.write .new item.1 (consultStages view item.2) true = some (s.put .new item.1 doc)) :
    VerifyMove view s (.applyDiverged i) { s.put .new item.1 doc with
      verify := .repairing todo [] (items.eraseIdx i) ids }
  | reverse {ids : List String} (hv : s.verify = .repairing [] [] [] ids) :
    VerifyMove view s .reverse { s with verify := .reversing ids }
  | deleteOrphan {i : ℕ} {id : String} {orphans : List String}
    (hv : s.verify = .reversing orphans) (hid : orphans[i]? = some id) :
    VerifyMove view s (.deleteOrphan i) { s.put .new id none with
      verify := .reversing (orphans.eraseIdx i)
      removed := s.removed ++ [id] }
  | finish (hv : s.verify = .reversing []) :
    VerifyMove view s .finish { s with verify := .returned }

theorem stepVerify_move {a : VerifyAction}
    (h : s.stepVerify view a = some s') : VerifyMove view s a s' := by
  cases a with
  | snapshot | finish =>
    obtain ⟨hv, rfl⟩ := ite_some_none_eq_some.1 h
    first
    | exact .snapshot hv.1 hv.2
    | exact .finish hv
  | applyDiverged i =>
    simp only [stepVerify] at h
    split at h
    · obtain ⟨item, hitem, h⟩ := bind_eq_some_iff.1 h
      obtain ⟨t, ht, rfl⟩ := map_eq_some_iff.1 h
      obtain ⟨doc, -, rfl⟩ := write_ok ht
      exact .applyDiverged ‹_› hitem ht
    · cases h
  | deleteOrphan i =>
    simp only [stepVerify] at h
    split at h
    · obtain ⟨id, hid, rfl⟩ := map_eq_some_iff.1 h
      exact .deleteOrphan ‹_› hid
    · cases h
  | _ =>
    simp only [stepVerify] at h
    split at h
    · cases h
      constructor
      assumption
    · cases h

/-- A step of the verification: its effect on the shadow, and the roots it has composed. -/
theorem stepVerify_ok (hinv : ShadowInv view s) {a : VerifyAction}
    (h : s.stepVerify view a = some s') :
    VerifyFrame s s' ∧ (∀ id, DocMove view s s' id) ∧
      ∀ item ∈ s'.verify.items, item ∈ s.verify.items ∨
        ∃ embeds, composeEmbedding view s.db item.1 embeds = some item.2 := by
  cases stepVerify_move h with
  | row hv =>
    refine ⟨⟨rfl, rfl, rfl, rfl, rfl⟩, fun id => .same rfl, fun item hitem => ?_⟩
    dsimp only at hitem
    split_ifs at hitem <;> cases hitem
  | @composeDiverged embeds id todo chunk ids items hv =>
    refine ⟨⟨rfl, rfl, rfl, rfl, rfl⟩, fun id => .same rfl, fun item hitem => ?_⟩
    simp only [VerifyPhase.items, mem_append, hv] at hitem ⊢
    refine hitem.imp_right fun hitem => ?_
    obtain ⟨doc, hdoc, rfl⟩ := map_eq_some_iff.1 (mem_toList.1 hitem)
    exact ⟨embeds, hdoc⟩
  | @applyDiverged i item doc todo ids items hv hitem ht =>
    have hmem : item ∈ s.verify.items := by
      rw [hv]
      exact mem_of_getElem? hitem
    have hdocs : ∀ id, DocMove view s (s.put .new item.1 doc) id :=
      docMove_write ht (fun _ _ => consultStages_advances) fun _ => hinv.items item hmem
    refine ⟨⟨rfl, rfl, rfl, rfl, rfl⟩, fun id => (hdocs id).congr rfl, fun item' hitem' => .inl ?_⟩
    rw [hv]
    exact mem_of_mem_eraseIdx hitem'
  | deleteOrphan hv hid =>
    exact ⟨⟨rfl, rfl, rfl, rfl, rfl⟩,
      docMove_put_none (.inl rfl) (.inr ⟨_, hv, mem_of_getElem? hid⟩) rfl, nofun⟩
  | _ => exact ⟨⟨rfl, rfl, rfl, rfl, rfl⟩, fun id => .same rfl, nofun⟩

theorem Pipeline.stages_advances {p : Pipeline} (hp : p.Fits view)
    {d d' : Doc} (h : runStages d (p.stages view) = .ok d') :
    Advances (d.get docRevisionField) (d'.get docRevisionField) := by
  have hguard := (p.write_guarded hp d).revision
  rwa [Pipeline.write, h] at hguard

/-- **What a step does to a document of the shadow.** -/
theorem shadow_docMove (hinv : ShadowInv view s) (hev : Evolves view s a)
    (h : (shadowMachine view).step s a = some s') (id : String) : DocMove view s s' id := by
  cases a with
  | commit db =>
    cases h
    exact .same rfl
  | bulkApply i =>
    obtain ⟨item, hitem, h⟩ := bind_eq_some_iff.1 h
    obtain ⟨t, ht, rfl⟩ := map_eq_some_iff.1 h
    have hdocs : DocMove view s t id :=
      docMove_write ht (fun _ _ => consultStages_advances)
        (fun _ => hinv.inFlight item (mem_of_getElem? hitem)) id
    exact hdocs.congr rfl
  | project slot j p =>
    simp only [shadowMachine] at h
    split_ifs at h with hknown
    refine docMove_write h (fun _ _ => Pipeline.stages_advances hev) (fun hup => ?_) id
    exact hknown.resolve_left (by rw [hup]; nofun)
  | deleteActive j =>
    obtain ⟨hj, rfl⟩ := ite_some_none_eq_some.1 h
    exact (docMove_deleteGuarded (hinv.deleting j (by rw [hj]; nofun)).2 s.served).congr rfl
  | deleteShadow j =>
    simp only [shadowMachine] at h
    split_ifs at h with hj hflip
    · cases h
      exact .same rfl
    · cases h
      exact (docMove_deleteGuarded (hinv.deleting j (by rw [hj]; nofun)).2 .new).congr rfl
  | remove slot j =>
    obtain ⟨hj, rfl⟩ := ite_some_none_eq_some.1 h
    exact docMove_put_none (.inl rfl) (.inl hj.2) rfl id
  | verify a => exact (stepVerify_ok hinv h).2.1 id
  | compose slot j embeds | stampTombstone j | flip =>
    obtain ⟨-, rfl⟩ := ite_some_none_eq_some.1 h
    exact .same rfl

theorem ShadowState.deleteGuarded_frame (s : ShadowState) (slot : Slot) (id : String) :
    VerifyFrame s (s.deleteGuarded slot id) ∧ (s.deleteGuarded slot id).verify = s.verify ∧
      (s.deleteGuarded slot id).removed = s.removed := by
  rw [deleteGuarded]
  split <;> exact ⟨⟨rfl, rfl, rfl, rfl, rfl⟩, rfl, rfl⟩

theorem ne_pending_of_update {f : String → DeletionPhase} {id : String} {p : DeletionPhase}
    (h : update f j p id ≠ .pending) : id = j ∨ f id ≠ .pending := by
  by_cases he : id = j
  · exact .inl he
  · rw [update_of_ne he] at h
    exact .inr h

/-- What the steps beside the commits and the verification leave alone, what they compose and what
they delete. -/
structure StepFrame (view : EmbeddingView) (s s' : ShadowState) : Prop where
  db : s'.db = s.db
  last : s'.last = s.last
  verify : s'.verify = s.verify
  removed : s'.removed = s.removed
  inFlight : ∀ item ∈ s'.inFlight, item ∈ s.inFlight ∨
    ∃ embeds, composeEmbedding view s.db item.id embeds = some item.doc
  deletions : ∀ id, s'.deletions id ≠ .pending → s.deletions id ≠ .pending ∨
    ((s.last id).isSome ∧ view.root.row s.db id = none)

theorem StepFrame.delete {t : ShadowState} {p : DeletionPhase} (hj : s.deletions j ≠ .pending)
    (h : VerifyFrame s t ∧ t.verify = s.verify ∧ t.removed = s.removed) :
    StepFrame view s { t with deletions := update s.deletions j p } := by
  obtain ⟨hframe, hverify, hremoved⟩ := h
  refine ⟨hframe.db, hframe.last, hverify, hremoved, fun _ h => .inl (hframe.inFlight ▸ h),
    fun id hid => .inl ?_⟩
  rcases ne_pending_of_update hid with rfl | hid
  · exact hj
  · exact hid

theorem frame_of_step (h : (shadowMachine view).step s a = some s') (hv : ∀ v, a ≠ .verify v)
    (hc : ∀ db, a ≠ .commit db) : StepFrame view s s' := by
  cases a with
  | verify v => exact absurd rfl (hv v)
  | commit db => exact absurd rfl (hc db)
  | compose slot j embeds =>
    obtain ⟨-, rfl⟩ := ite_some_none_eq_some.1 h
    refine ⟨rfl, rfl, rfl, rfl, fun item hitem => ?_, fun _ h => .inl h⟩
    refine (mem_append.1 hitem).imp_right fun hitem => ?_
    obtain ⟨doc, hdoc, rfl⟩ := map_eq_some_iff.1 (mem_toList.1 hitem)
    exact ⟨embeds, hdoc⟩
  | bulkApply i =>
    obtain ⟨item, -, h⟩ := bind_eq_some_iff.1 h
    obtain ⟨t, ht, rfl⟩ := map_eq_some_iff.1 h
    obtain ⟨doc, -, rfl⟩ := write_ok ht
    exact ⟨rfl, rfl, rfl, rfl, fun _ h => .inl (mem_of_mem_eraseIdx h), fun _ h => .inl h⟩
  | project slot j p =>
    simp only [shadowMachine] at h
    split_ifs at h
    obtain ⟨doc, -, rfl⟩ := write_ok h
    exact ⟨rfl, rfl, rfl, rfl, fun _ h => .inl h, fun _ h => .inl h⟩
  | stampTombstone j =>
    obtain ⟨hj, rfl⟩ := ite_some_none_eq_some.1 h
    refine ⟨rfl, rfl, rfl, rfl, fun _ h => .inl h, fun id hid => ?_⟩
    rcases ne_pending_of_update hid with rfl | hid
    · exact .inr hj.2
    · exact .inl hid
  | deleteActive j =>
    obtain ⟨hj, rfl⟩ := ite_some_none_eq_some.1 h
    exact .delete (by rw [hj]; nofun) (s.deleteGuarded_frame s.served j)
  | deleteShadow j =>
    simp only [shadowMachine] at h
    split_ifs at h with hj
    · cases h
      exact .delete (by rw [hj]; nofun) ⟨⟨rfl, rfl, rfl, rfl, rfl⟩, rfl, rfl⟩
    · cases h
      rw [(s.deleteGuarded_frame .new j).1.deletions]
      exact .delete (by rw [hj]; nofun) (s.deleteGuarded_frame .new j)
  | remove slot j | flip =>
    obtain ⟨-, rfl⟩ := ite_some_none_eq_some.1 h
    exact ⟨rfl, rfl, rfl, rfl, fun _ h => .inl h, fun _ h => .inl h⟩

/-- A step that leaves the rows alone keeps the invariant, if what it composes has a row and what it
deletes has none. -/
theorem ShadowInv.of_docMove (hinv : ShadowInv view s)
    (hdocs : ∀ id, DocMove view s s' id) (hdb : s'.db = s.db) (hlast : s'.last = s.last)
    (hflight : ∀ item ∈ s'.inFlight, item ∈ s.inFlight ∨ (s.last item.id).isSome)
    (hitems : ∀ item ∈ s'.verify.items, item ∈ s.verify.items ∨ (s.last item.1).isSome)
    (hdel : ∀ id, s'.deletions id ≠ .pending → s.deletions id ≠ .pending ∨
      ((s.last id).isSome ∧ view.root.row s.db id = none)) : ShadowInv view s' := by
  refine ⟨?_, fun id d hd => ?_, fun item hitem => ?_, fun item hitem => ?_, fun id hid => ?_⟩
  · rw [hdb, hlast]
    exact hinv.last
  · rw [hlast]
    cases hdocs id with
    | same h => exact hinv.marked id d (h ▸ hd)
    | written h hknown hadv =>
      cases h.symm.trans hd
      cases hstored : (s.docs .new).get id with
      | none =>
        rw [hstored] at hknown hadv
        refine ⟨?_, hknown.resolve_left nofun⟩
        rcases hadv with he | ⟨n, hn, -⟩
        · exact .inl he
        · exact .inr ⟨n, hn⟩
      | some e =>
        rw [hstored] at hadv
        obtain ⟨hmark, hsome⟩ := hinv.marked id e hstored
        exact ⟨hmark.advance hadv, hsome⟩
    | deleted h =>
      rw [h] at hd
      cases hd
  · rw [hlast]
    exact (hflight item hitem).elim (hinv.inFlight item) fun h => h
  · rw [hlast]
    exact (hitems item hitem).elim (hinv.items item) fun h => h
  · rw [hlast, hdb]
    exact (hdel id hid).elim (hinv.deleting id) fun h => h

theorem ShadowInv.composed {view : RebuildView} {doc : Doc} (hinv : ShadowInv view s)
    (h : ∃ embeds, composeEmbedding view s.db j embeds = some doc) : (s.last j).isSome := by
  obtain ⟨embeds, hdoc⟩ := h
  obtain ⟨r, hr, -⟩ := composeEmbedding_stamped hdoc
  rw [(hinv.last j r hr).1]
  rfl

/-- **One step** of the rebuild or beside it. -/
theorem ShadowInv.step {view : RebuildView} (hinv : ShadowInv view s) (hev : Evolves view s a)
    (h : (shadowMachine view).step s a = some s') : ShadowInv view s' := by
  have hdocs := shadow_docMove hinv hev h
  cases a with
  | commit db =>
    cases h
    have hmono : ∀ id, (s.last id).isSome → ((view.root.row db id).or (s.last id)).isSome :=
      fun id hid => by
        cases view.root.row db id with
        | none => exact hid
        | some r => rfl
    refine ⟨fun id r hr => ⟨?_, (hev id r hr).1⟩, fun id d hd => ?_, fun item hitem => ?_,
      fun item hitem => ?_, fun id hid => ?_⟩
    · dsimp only
      rw [hr, Option.some_or]
    · obtain ⟨hmark, hsome⟩ := hinv.marked id d hd
      exact ⟨hmark, hmono id hsome⟩
    · exact hmono _ (hinv.inFlight item hitem)
    · exact hmono _ (hinv.items item hitem)
    · obtain ⟨hsome, hgone⟩ := hinv.deleting id hid
      refine ⟨hmono id hsome, ?_⟩
      cases hrow : view.root.row db id with
      | none => rfl
      | some r' =>
        -- a root that is gone does not come back
        obtain ⟨r, hr⟩ := isSome_iff_exists.1 hsome
        have hback := ((hev id r' hrow).2 r hr).1
        rw [hgone] at hback
        cases hback
  | verify a =>
    obtain ⟨hframe, -, hitems⟩ := stepVerify_ok hinv h
    exact hinv.of_docMove hdocs hframe.db hframe.last (fun _ h => .inl (hframe.inFlight ▸ h))
      (fun item hitem => (hitems item hitem).imp_right hinv.composed)
      fun _ h => .inl (hframe.deletions ▸ h)
  | _ =>
    have hframe := frame_of_step h nofun nofun
    exact hinv.of_docMove hdocs hframe.db hframe.last
      (fun item hitem => (hframe.inFlight item hitem).imp_right hinv.composed)
      (fun _ h => .inl (hframe.verify ▸ h)) hframe.deletions

end

/-! ### Completeness -/

/-- The shadow has the document of a root at a revision or past it. -/
def ShadowState.ShadowAt (id : String) (rev : ℕ) : Prop :=
  ∃ d, (s.docs .new).get id = some d ∧ AtLeast (d.get docRevisionField) rev

/-- A composed root at a revision or past it. -/
def ComposedAt (doc : Doc) (rev : ℕ) : Prop :=
  ∃ n : ℕ, doc.get docRevisionField = some (.int n) ∧ 0 < n ∧ rev ≤ n ∧
    view.root.idColumn ∈ doc.keys

/-- A row that was streamed with a revision is still to be compared, to be composed or to be
written, or the shadow has its document; and it is no orphan. -/
def Covered (id : String) (rev : ℕ) (s : ShadowState) : Prop :=
  match s.verify with
  | .waiting | .snapshotted _ => False
  | .scanning rows batch checking diverged ids => (id ∈ ids → (id, rev) ∈ rows) ∧
      ((id, rev) ∈ rows ++ batch ++ checking ∨ id ∈ diverged ∨ s.ShadowAt id rev)
  | .repairing todo chunk items ids => id ∉ ids ∧
      (id ∈ chunk ++ todo ∨ (∃ doc, (id, doc) ∈ items ∧ ComposedAt view doc rev) ∨
        s.ShadowAt id rev)
  | .reversing orphans => id ∉ orphans ∧ s.ShadowAt id rev
  | .returned => s.ShadowAt id rev

/-- The root has a row at a revision or past it. -/
def RowAt (id : String) (rev : ℕ) (s : ShadowState) : Prop :=
  ∃ r, view.root.row s.db id = some r ∧ rev ≤ r.revision

/-- A commit that keeps the row of a root. -/
def KeepsRow (id : String) : ShadowAction → Prop
  | .commit db => (view.root.row db id).isSome
  | _ => True

section

variable {view : EmbeddingView} {s s' : ShadowState} {a : ShadowAction} {id : String} {rev : ℕ}

theorem DocMove.shadowAt (h : DocMove view s s' id) (hrow : RowAt view id rev s)
    (horphan : ∀ orphans, s.verify = .reversing orphans → id ∉ orphans)
    (hat : s.ShadowAt id rev) : s'.ShadowAt id rev := by
  obtain ⟨d, hd, hle⟩ := hat
  cases h with
  | same h => exact ⟨d, h.trans hd, hle⟩
  | written h _ hadv =>
    rw [hd] at hadv
    exact ⟨_, h, hle.advance hadv⟩
  | deleted _ hgone =>
    obtain ⟨r, hr, -⟩ := hrow
    rcases hgone with hgone | ⟨orphans, hv, hmem⟩
    · rw [hgone] at hr
      cases hr
    · exact absurd hmem (horphan orphans hv)

theorem Covered.of_verify_eq (h : Covered view id rev s)
    (hverify : s'.verify = s.verify) (hat : s.ShadowAt id rev → s'.ShadowAt id rev) :
    Covered view id rev s' := by
  rw [Covered] at h ⊢
  rw [hverify]
  split at h
  · exact h
  · exact h
  · exact ⟨h.1, h.2.imp_right fun h => h.imp_right hat⟩
  · exact ⟨h.1, h.2.imp_right fun h => h.imp_right hat⟩
  · exact ⟨h.1, hat h.2⟩
  · exact hat h

theorem Covered.not_orphan (h : Covered view id rev s)
    (orphans : List String) (hv : s.verify = .reversing orphans) : id ∉ orphans := by
  rw [Covered, hv] at h
  exact h.1

theorem mem_eraseIdx_or {β : Type*} {l : List β} {x : β} (h : x ∈ l) (i : ℕ) :
    x ∈ l.eraseIdx i ∨ l[i]? = some x := by
  obtain ⟨j, hj⟩ := mem_iff_getElem?.1 h
  by_cases hji : j = i
  · exact .inr (hji ▸ hj)
  · exact .inl (mem_eraseIdx_iff_getElem?.2 ⟨j, hji, hj⟩)

theorem eq_int_of_watermarkOf_pos {stored : Option Value} (h : 0 < watermarkOf stored) :
    stored = some (.int (watermarkOf stored)) := by
  unfold watermarkOf at h ⊢
  split at h
  · rfl
  · cases h

theorem shadowAt_of_not_isBehind (hpos : 0 < rev) (h : ¬s.isBehind (id, rev) = true) :
    s.ShadowAt id rev := by
  rw [isBehind] at h
  cases hgot : s.revisionByID id with
  | none => simp [hgot] at h
  | some got =>
    have hle : (rev : ℤ) ≤ got := by simpa [hgot] using h
    obtain ⟨d, hd, rfl⟩ := map_eq_some_iff.1 hgot
    exact ⟨d, hd, _, eq_int_of_watermarkOf_pos (by omega), hle⟩

variable {view : RebuildView}

theorem shadowAt_of_write {doc : Doc} (hinv : ShadowInv view s)
    (hdoc : ComposedAt view doc rev)
    (h : s.write .new id (consultStages view doc) true = some s') : s'.ShadowAt id rev := by
  obtain ⟨n, hn, hpos, hle, hid⟩ := hdoc
  obtain ⟨stored, hstored, rfl⟩ := write_ok h
  obtain ⟨-, d', rfl, hrun⟩ := (applyProjection_ok hstored).resolve_left nofun
  have hmark : Watermarked (((s.docs .new).get id).getD [("_id", .str id)]) docRevisionField := by
    cases hd : (s.docs .new).get id with
    | none => exact .inl rfl
    | some d => exact (hinv.marked id d hd).1
  obtain ⟨m, hm, hnm⟩ := consultStages_reaches hn hpos (ownData_ne_nil hid) hmark hrun
  refine ⟨d', ?_, m, hm, by omega⟩
  rw [get_put, if_pos ⟨rfl, rfl⟩]

variable {v : VerifyAction}

section

variable {view : RebuildView} (hkeep : view.deleteOnArchive = false) (hpos : 0 < rev)
  (hinv : ShadowInv view s) (hrow : RowAt view id rev s) (hcov : Covered view id rev s)
include hkeep hpos hinv hrow hcov

/-- **A step of the verification.** -/
theorem Covered.stepVerify (h : s.stepVerify view v = some s') : Covered view id rev s' := by
  have hat : s.ShadowAt id rev → s'.ShadowAt id rev :=
    ((stepVerify_ok hinv h).2.1 id).shadowAt hrow hcov.not_orphan
  rw [Covered] at hcov
  cases stepVerify_move h with
  | snapshot hv | scan hv =>
    rw [hv] at hcov
    exact hcov.elim
  | @row row rows batch diverged ids hv =>
    rw [hv] at hcov
    obtain ⟨hids, hcov⟩ := hcov
    have hids' : id ∈ ids.filter (· ≠ row.1) → (id, rev) ∈ rows := fun hmem => by
      obtain ⟨hmem, hne⟩ := mem_filter.1 hmem
      rcases mem_cons.1 (hids hmem) with rfl | hrest
      · simp at hne
      · exact hrest
    rw [Covered]
    dsimp only
    split_ifs
    all_goals
      refine ⟨hids', hcov.imp ?_ fun h => h.imp_right hat⟩
      simp only [mem_append, mem_cons]
      tauto
  | flush hv =>
    rw [hv] at hcov
    refine ⟨hcov.1, hcov.2.imp ?_ fun h => h.imp_right hat⟩
    simp only [mem_append]
    tauto
  | @check row rows batch checking diverged ids hv =>
    rw [hv] at hcov
    obtain ⟨hids, hcov⟩ := hcov
    refine ⟨hids, ?_⟩
    rcases hcov with hmem | hmem | hmem
    · by_cases he : (id, rev) = row
      · -- the row itself: it is behind, or the shadow has it
        subst he
        split_ifs with hbehind
        · exact .inr (.inl mem_concat_self)
        · exact .inr (.inr (hat (shadowAt_of_not_isBehind hpos hbehind)))
      · left
        simp only [mem_append, mem_cons, he, false_or] at hmem ⊢
        exact hmem
    · right; left
      split_ifs
      · exact mem_append_left _ hmem
      · exact hmem
    · exact .inr (.inr (hat hmem))
  | repair hv =>
    rw [hv] at hcov
    refine ⟨fun hmem => absurd (hcov.1 hmem) (by simp), ?_⟩
    rcases hcov.2 with hmem | hmem | hmem
    · simp at hmem
    · exact .inl hmem
    · exact .inr (.inr (hat hmem))
  | chunk hv =>
    rw [hv] at hcov
    refine ⟨hcov.1, ?_⟩
    rw [take_append_drop]
    exact hcov.2.imp_right fun h => h.imp_right hat
  | @composeDiverged embeds j todo chunk ids items hv =>
    rw [hv] at hcov
    refine ⟨hcov.1, ?_⟩
    rcases hcov.2 with hmem | ⟨doc, hmem, hdoc⟩ | hmem
    · rw [cons_append, mem_cons] at hmem
      rcases hmem with rfl | hmem
      · -- its row is there, so it is composed at the revision of the row
        obtain ⟨r, hr, hle⟩ := hrow
        have hsome : (composeEmbedding view s.db id embeds).isSome := by
          rw [composeEmbedding, isSome_map]
          exact compose_isSome hkeep (by rw [hr]; rfl)
        obtain ⟨doc, hdoc⟩ := isSome_iff_exists.1 hsome
        obtain ⟨r', hr', hrev, hid⟩ := composeEmbedding_stamped hdoc
        cases hr.symm.trans hr'
        refine .inr (.inl ⟨doc, ?_, r.revision, hrev, by omega, hle, hid⟩)
        rw [hdoc]
        exact mem_concat_self
      · exact .inl hmem
    · exact .inr (.inl ⟨doc, mem_append_left _ hmem, hdoc⟩)
    · exact .inr (.inr (hat hmem))
  | @applyDiverged i item doc todo ids items hv hitem ht =>
    rw [hv] at hcov
    refine ⟨hcov.1, ?_⟩
    rcases hcov.2 with hmem | ⟨doc, hmem, hdoc⟩ | hmem
    · exact .inl hmem
    · rcases mem_eraseIdx_or hmem i with hmem | he
      · exact .inr (.inl ⟨doc, hmem, hdoc⟩)
      · cases hitem.symm.trans he
        have hnew := shadowAt_of_write hinv hdoc ht
        exact .inr (.inr hnew)
    · exact .inr (.inr (hat hmem))
  | reverse hv =>
    rw [hv] at hcov
    refine ⟨hcov.1, ?_⟩
    rcases hcov.2 with hmem | ⟨doc, hmem, -⟩ | hmem
    · cases hmem
    · cases hmem
    · exact hat hmem
  | deleteOrphan hv _ =>
    rw [hv] at hcov
    exact ⟨fun hmem => hcov.1 (mem_of_mem_eraseIdx hmem), hat hcov.2⟩
  | finish hv =>
    rw [hv] at hcov
    exact hat hcov.2

/-- **A step keeps a streamed row covered.** -/
theorem Covered.step (hev : Evolves view s a) (h : (shadowMachine view).step s a = some s') :
    Covered view id rev s' := by
  have hat : s.ShadowAt id rev → s'.ShadowAt id rev :=
    (shadow_docMove hinv hev h id).shadowAt hrow hcov.not_orphan
  cases a with
  | verify v => exact hcov.stepVerify hkeep hpos hinv hrow h
  | commit db =>
    cases h
    exact hcov.of_verify_eq rfl hat
  | _ => exact hcov.of_verify_eq (frame_of_step h nofun nofun).verify hat

end

theorem RowAt.step (hinv : ShadowInv view s)
    (hrow : RowAt view id rev s) (hev : Evolves view s a) (hkeeps : KeepsRow view id a)
    (h : (shadowMachine view).step s a = some s') : RowAt view id rev s' := by
  obtain ⟨r, hr, hle⟩ := hrow
  cases a with
  | commit db =>
    cases h
    obtain ⟨r', hr'⟩ := isSome_iff_exists.1 hkeeps
    exact ⟨r', hr', hle.trans ((hev id r' hr').2 r (hinv.last id r hr).1).2.1⟩
  | verify v => exact ⟨r, (stepVerify_ok hinv h).1.db ▸ hr, hle⟩
  | _ => exact ⟨r, (frame_of_step h nofun nofun).db ▸ hr, hle⟩

/-- A streamed row, beside everything else. -/
structure Streamed (view : EmbeddingView) (id : String) (rev : ℕ) (s : ShadowState) : Prop where
  inv : ShadowInv view s
  row : RowAt view id rev s
  covered : Covered view id rev s

theorem Streamed.step (hkeep : view.deleteOnArchive = false) (hpos : 0 < rev)
    (h : Streamed view id rev s)
    (ha : Evolves view s a ∧ KeepsRow view id a)
    (hstep : (shadowMachine view).step s a = some s') : Streamed view id rev s' :=
  ⟨h.inv.step ha.1 hstep, h.row.step h.inv ha.1 ha.2 hstep,
    h.covered.step hkeep hpos h.inv h.row ha.1 hstep⟩

theorem stepVerify_unmatched (h : s.stepVerify view v = some s') (hv : s.verify ≠ .waiting) :
    s'.verify ≠ .waiting ∧ (∀ id ∈ s'.verify.unmatched, id ∈ s.verify.unmatched) ∧
      ∀ id ∈ s'.removed, id ∈ s.removed ∨ id ∈ s.verify.unmatched := by
  cases stepVerify_move h with
  | snapshot hw => exact absurd hw hv
  | row hv =>
    rw [hv]
    dsimp only
    split_ifs
    all_goals exact ⟨nofun, fun id hid => mem_of_mem_filter hid, fun _ h => .inl h⟩
  | deleteOrphan hv hj =>
    rw [hv]
    refine ⟨nofun, fun id hid => mem_of_mem_eraseIdx hid, fun id hid => ?_⟩
    refine (mem_append.1 hid).imp_right fun hid => ?_
    rw [mem_singleton.1 hid]
    exact mem_of_getElem? hj
  | finish hw => exact ⟨nofun, nofun, fun _ h => .inl h⟩
  | scan hv | flush hv | check hv | repair hv | chunk hv | composeDiverged hv
  | applyDiverged hv _ _ | reverse hv =>
    rw [hv]
    exact ⟨nofun, fun _ h => h, fun _ h => .inl h⟩

/-- Every id that is unmatched or was deleted by the reverse pass was in the snapshot. -/
structure FromSnapshot (ids : List String) (s : ShadowState) : Prop where
  taken : s.verify ≠ .waiting
  unmatched : ∀ id ∈ s.verify.unmatched, id ∈ ids
  removed : ∀ id ∈ s.removed, id ∈ ids

theorem FromSnapshot.step {ids : List String} (hfrom : FromSnapshot ids s)
    (h : (shadowMachine view).step s a = some s') : FromSnapshot ids s' := by
  cases a with
  | verify v =>
    obtain ⟨hv, hunmatched, hremoved⟩ := stepVerify_unmatched h hfrom.taken
    exact ⟨hv, fun id hid => hfrom.unmatched id (hunmatched id hid),
      fun id hid => (hremoved id hid).elim (hfrom.removed id) (hfrom.unmatched id)⟩
  | commit db =>
    cases h
    exact ⟨hfrom.taken, hfrom.unmatched, hfrom.removed⟩
  | _ =>
    obtain ⟨-, -, hv, hr⟩ := frame_of_step h nofun nofun
    exact ⟨hv ▸ hfrom.taken, hv ▸ hfrom.unmatched, hr ▸ hfrom.removed⟩

theorem verify_ne_waiting (h : s.stepVerify view v = some s') : s'.verify ≠ .waiting := by
  by_cases hw : s.verify = .waiting
  · cases stepVerify_move h <;> simp_all
  · exact (stepVerify_unmatched h hw).1

theorem removed_of_waiting (hr : s.verify = .waiting → s.removed = [])
    (h : (shadowMachine view).step s a = some s') : s'.verify = .waiting → s'.removed = [] := by
  cases a with
  | verify v => exact fun hw => absurd hw (verify_ne_waiting h)
  | commit db =>
    cases h
    exact hr
  | _ =>
    obtain ⟨-, -, hv, hrem⟩ := frame_of_step h nofun nofun
    rw [hv, hrem]
    exact hr

/-- A rebuild begins: the shadow is empty, and the rebuilds in place and the deletions under way are
of roots that have a row, or have had one. -/
structure Begins (view : EmbeddingView) (s : ShadowState) : Prop where
  rows : ∀ id r, view.root.row s.db id = some r → s.last id = some r ∧ 0 < r.revision
  shadow : s.docs .new = []
  verify : s.verify = .waiting
  inFlight : ∀ item ∈ s.inFlight, (s.last item.id).isSome
  deleting : ∀ id, s.deletions id ≠ .pending → (s.last id).isSome ∧ view.root.row s.db id = none
  removed : s.removed = []

theorem Begins.inv (h : Begins view s) : ShadowInv view s := by
  refine ⟨h.rows, fun id d hd => ?_, h.inFlight, fun item hitem => ?_, h.deleting⟩
  · rw [h.shadow] at hd
    cases hd
  · rw [h.verify] at hitem
    cases hitem

theorem fromSnapshot_of_snapshot
    (h : (shadowMachine view).step s (.verify .snapshot) = some s')
    (hr : s.verify = .waiting → s.removed = []) : FromSnapshot (s.docs .new).keys s' := by
  obtain ⟨hw, rfl⟩ := ite_some_none_eq_some.1 h
  exact ⟨nofun, fun _ h => h, by rw [hr hw.1]; nofun⟩

theorem covered_of_scan {r : RowStamp} (h : (shadowMachine view).step s (.verify .scan) = some s')
    (hr : view.root.row s.db id = some r) : Covered view id r.revision s' := by
  simp only [shadowMachine, stepVerify] at h
  split at h
  · cases h
    have hmem := ViewRoot.mem_rows hr
    exact ⟨fun _ => hmem, .inl (by simpa using hmem)⟩
  · cases h

end

/-- **A verified shadow is complete.**  When the verification returns, whatever has happened beside
it, every root that had a row when the source was scanned and has kept it has a document of that
revision or a later one; and the reverse pass has deleted no document of a root born after the ids
of the shadow were read. -/
theorem shadow_complete (view : RebuildView) (hkeep : view.deleteOnArchive = false)
    {s₀ s₁ s₂ s : ShadowState} {before between after : List ShadowAction}
    (hbegins : Begins view.toEmbeddingView s₀)
    (hev : (shadowMachine view.toEmbeddingView).Along (Evolves view.toEmbeddingView) s₀
      (before ++ .verify .snapshot :: between ++ .verify .scan :: after))
    (hbefore : (shadowMachine view.toEmbeddingView).run s₀ before = some s₁)
    (hbetween :
      (shadowMachine view.toEmbeddingView).run s₁ (.verify .snapshot :: between) = some s₂)
    (hafter : (shadowMachine view.toEmbeddingView).run s₂ (.verify .scan :: after) = some s)
    (hreturned : s.verify = .returned) :
    (∀ id r, view.root.row s₂.db id = some r →
      (∀ a ∈ after, KeepsRow view.toEmbeddingView id a) → s.ShadowAt id r.revision) ∧
    ∀ id, s₁.last id = none → id ∉ s.removed := by
  obtain ⟨hev, hev3⟩ := along_append.1 hev
  obtain ⟨hev1, hev2⟩ := along_append.1 hev
  replace hev2 := hev2 s₁ hbefore
  replace hev3 := hev3 s₂ (by rw [run_append, hbefore]; exact hbetween)
  have hstep : ∀ t a t', ShadowInv view t → Evolves view t a →
      (shadowMachine view).step t a = some t' → ShadowInv view t' :=
    fun _ _ _ hinv hev h => hinv.step hev h
  have hinv1 := run_invariant hstep hbegins.inv hev1 hbefore
  have hinv2 := run_invariant hstep hinv1 hev2 hbetween
  constructor
  · intro id r hr hkeeps
    rw [run_cons, bind_eq_some_iff] at hafter
    obtain ⟨u, hu, hafter⟩ := hafter
    obtain ⟨hevu, hev3⟩ := (along_cons hu).1 hev3
    have hrow : RowAt view id r.revision s₂ := ⟨r, hr, le_rfl⟩
    have hstart : Streamed view id r.revision u :=
      ⟨hinv2.step hevu hu, hrow.step hinv2 hevu trivial hu, covered_of_scan hu hr⟩
    have hfinal : Streamed view id r.revision s :=
      run_invariant (fun _ _ _ h ha => h.step hkeep (hinv2.last id r hr).2 ha) hstart
        (hev3.and_forall hkeeps) hafter
    have hcov := hfinal.covered
    rwa [Covered, hreturned] at hcov
  · intro id hnew hremoved
    have hr1 : s₁.verify = .waiting → s₁.removed = [] :=
      run_invariant (fun _ _ _ h _ ht => removed_of_waiting h ht)
        (fun _ => hbegins.removed) hev1 hbefore
    rw [run_cons, bind_eq_some_iff] at hbetween
    obtain ⟨t, ht, hbetween⟩ := hbetween
    have hfrom := fromSnapshot_of_snapshot ht hr1
    replace hfrom := run_invariant (fun _ _ _ h _ => h.step) hfrom
      ((along_cons ht).1 hev2).2 hbetween
    replace hfrom := run_invariant (fun _ _ _ h _ => h.step) hfrom hev3 hafter
    -- what was in the shadow had a row
    have hmem := hfrom.removed id hremoved
    rw [← not_not (a := id ∈ _), ← get_eq_none_iff, ← Ne, Option.ne_none_iff_exists'] at hmem
    obtain ⟨d, hd⟩ := hmem
    have hsome := (hinv1.marked id d hd).2
    rw [hnew] at hsome
    cases hsome

/-- The customers' view. -/
def customersRebuilt : RebuildView where
  toEmbeddingView := customerView
  keys_not_reserved := by decide
  id_own := by decide

/-- Two customers. -/
def twoCustomers : Database where
  roots _ := ⟨[{ id := "a", fields := [("name", .str "Ann")] },
    { id := "b", fields := [("name", .str "Bob")] }], by decide⟩

/-- A rebuild of the customers begins. -/
def customersBegin : ShadowState where
  db := twoCustomers
  last := customersRebuilt.root.row twoCustomers

theorem begins_customers : Begins customersRebuilt customersBegin := by
  refine ⟨fun id r hr => ⟨hr, ?_⟩, rfl, rfl, nofun, fun _ h => absurd rfl h, rfl⟩
  obtain ⟨x, hx, rfl⟩ := map_eq_some_iff.1 hr
  have hmem := (Table.find_eq_some_iff.1 hx).1
  have hrev : ∀ x ∈ (twoCustomers.roots customers.table).rows, 0 < x.revision := by decide
  exact hrev x hmem

/-- The second customer is gone, and there is a third. -/
def nextCustomers : Database where
  roots _ := ⟨[{ id := "a", fields := [("name", .str "Ann")] },
    { id := "c", fields := [("name", .str "Ann")] }], by decide⟩

theorem evolves_nextCustomers {s : ShadowState} (hdb : s.db = twoCustomers)
    (hlast : s.last = customersRebuilt.root.row twoCustomers) :
    Evolves customersRebuilt s (.commit nextCustomers) := by
  intro id r' hr'
  have hmem := ViewRoot.mem_rows hr'
  have hrows : customersRebuilt.root.rows nextCustomers = [("a", 1), ("c", 1)] := rfl
  rw [hrows, mem_cons, mem_singleton] at hmem
  rw [hdb, hlast]
  rcases hmem with he | he <;> cases congrArg Prod.fst he <;> cases hr' <;>
    refine ⟨by decide, fun r hr => ?_⟩ <;> cases hr
  exact ⟨rfl, le_rfl, rfl⟩

/-- A customer whose deletion the backfill has missed is removed by the reverse pass, one it has
left out is composed, and one that is born during the verification has its live event. -/
theorem customers_verified :
    ∃ s₁ ∈ (shadowMachine customersRebuilt.toEmbeddingView).run customersBegin
        [.compose .new "b" [], .commit nextCustomers, .bulkApply 0, .verify .snapshot],
      ∃ s ∈ (shadowMachine customersRebuilt.toEmbeddingView).run s₁
        [.verify .scan, .verify .row, .verify .row, .project .new "c" (.payload (customerEvent 1)),
          .verify .flush, .verify .check, .verify .check, .verify .repair, .verify .chunk,
          .verify (.composeDiverged []), .verify (.applyDiverged 0), .verify .reverse,
          .verify (.deleteOrphan 0), .verify .finish],
      s.ShadowAt "a" 1 ∧ s.ShadowAt "c" 1 ∧ s.removed = ["b"] := by
  have hrun : ∃ s0 ∈ (shadowMachine customersRebuilt).run customersBegin
      [.compose .new "b" [], .commit nextCustomers, .bulkApply 0],
      ∃ s₁ ∈ (shadowMachine customersRebuilt).run s0 [.verify .snapshot],
      ∃ s ∈ (shadowMachine customersRebuilt).run s₁
        [.verify .scan, .verify .row, .verify .row, .project .new "c" (.payload (customerEvent 1)),
          .verify .flush, .verify .check, .verify .check, .verify .repair, .verify .chunk,
          .verify (.composeDiverged []), .verify (.applyDiverged 0), .verify .reverse,
          .verify (.deleteOrphan 0), .verify .finish],
      (s.verify = .returned ∧ s.removed = ["b"]) ∧
        customersRebuilt.root.row s₁.db "a" = some ⟨1, none⟩ ∧
        customersRebuilt.root.row s₁.db "c" = some ⟨1, none⟩ := by
    decide +kernel
  obtain ⟨s0, h0, s₁, h1, s, h, ⟨hret, hremoved⟩, ha, hc⟩ := hrun
  have hfits : (Pipeline.payload (customerEvent 1)).Fits customersRebuilt.toEmbeddingView :=
    customerEvent_fits 1
  have hcomplete := (shadow_complete customersRebuilt rfl begins_customers
    ((along_cons rfl).2 ⟨trivial, (along_cons rfl).2 ⟨evolves_nextCustomers rfl rfl,
      (along_of_forall (P := fun a => ∀ t, Evolves customersRebuilt t a)
        (by simp [Evolves, hfits]) _).mono fun t _ h => h t⟩⟩) h0 h1 h hret).1
  refine ⟨s₁, ?_, s, h, hcomplete "a" _ ha (by simp [KeepsRow]),
    hcomplete "c" _ hc (by simp [KeepsRow]), hremoved⟩
  have happ := run_append (M := shadowMachine customersRebuilt) customersBegin
    [.compose .new "b" [], .commit nextCustomers, .bulkApply 0] [.verify .snapshot]
  rw [h0] at happ
  exact happ.trans h1

end Omnicore.Query
