import Omnicore.Query.Sync
import Omnicore.Lib.Machine

/-!
# Deletions and late writers

A deletion leaves a tombstone before it removes the document, and every upsert looks for one after
its write: of a deletion and a racing upsert, whichever comes second removes the document.  An id
that is derived from a natural key can be born again, with its revisions starting over; the creation
instant tells the lives apart.  A tombstone expires after a time (`TombstoneTTL`) that outlasts the
redeliveries; the runs here are within it.

## Main definitions

* `handshakeMachine` : one deletion and any number of upserts of a document, one store operation at
  a time.
* `livesMachine` : the successive lives of a document, with redelivered events of finished lives.

## Main results

* `deleted_of_handshake` : the document is gone when all have finished, and a write of a later
  revision is never removed.
* `right_life_of_run` : the document follows the current life.
-/

namespace Omnicore.Query

open Omnicore.Core Write List AssocMap Option Machine

/-- The document field the incarnation test reads. -/
def incarnationField : String := "created_at"

/-! ### The document an event leaves -/

section

variable {schema : TableSchema} {ev : Payload} {d d' : Doc}

variable {id : String}

theorem get_new {k : String} (hk : k ∈ schema.documentKeys) :
    get [("_id", Value.str id)] k = none := by
  have hne : "_id" ≠ k := fun h => schema.keys_not_reserved k hk (h ▸ by decide)
  rw [get_cons, if_neg hne, get_nil]

theorem projectable_new : Projectable schema [("_id", .str id)] :=
  ⟨.inl rfl, .inl rfl, fun _ hc =>
    .inl (get_new (mem_append_right _ (mem_map_of_mem hc)))⟩

theorem projectable_getD {doc : Option Doc} {id : String}
    (h : ∀ d ∈ doc, Projectable schema d) : Projectable schema (doc.getD [("_id", .str id)]) := by
  cases doc with
  | none => exact projectable_new
  | some d => exact h d rfl

theorem Projected.projectable (h : Projected schema ev d d') (hd : Projectable schema d) :
    Projectable schema d' := by
  refine ⟨.inr ⟨_, h.revision⟩, ?_, fun c hc => .inr ⟨_, h.segments c hc⟩⟩
  rw [Watermarked, h.baseRevision]
  split_ifs
  · exact .inr ⟨_, rfl⟩
  · exact hd.baseRevision

theorem Projected.storedRevision (h : Projected schema ev d d') :
    storedRevision d' docRevisionField =
      max (Query.storedRevision d docRevisionField) ev.ids.revision :=
  storedRevision_of_get h.revision

/-- **An upsert** of an event goes through. -/
theorem applyProjection_event (hev : WellFormed schema ev) {doc : Option Doc}
    (hdoc : ∀ d ∈ doc, Projectable schema d) :
    ∃ d', applyProjection doc id (buildProjectionStages schema ev) true =
        .ok (some d') ∧
      Projected schema ev (doc.getD [("_id", .str id)]) d' := by
  cases doc with
  | none =>
    obtain ⟨d', hrun, hp⟩ := buildProjectionStages_run hev projectable_new
    exact ⟨d', by simp only [applyProjection, if_true, hrun]; rfl, hp⟩
  | some d =>
    obtain ⟨d', hrun, hp⟩ := buildProjectionStages_run hev (hdoc d rfl)
    exact ⟨d', by simp only [applyProjection, hrun]; rfl, hp⟩

/-! ### The creation instant of a document -/

variable {col : String}

theorem createdAt_ne {schema : TableSchema} (h : schema.createdAt = some col) :
    col ≠ schema.idColumn ∧ col ∉ schema.siblings.flatMap (columns ·.fields) := by
  have hnodup : (schema.idColumn :: columns schema.fields ++
      schema.siblings.flatMap (columns ·.fields) ++ schema.archivedAt.toList ++
      schema.createdAt.toList).Nodup :=
    schema.keys_nodup.of_append_left.of_append_left.of_append_left.of_append_left
  have hdisj := disjoint_of_nodup_append hnodup
  have hcol : col ∈ schema.createdAt.toList := by simp [h]
  refine ⟨?_, fun hmem => hdisj ?_ hcol⟩
  · rintro rfl
    exact hdisj (by simp) hcol
  · simp only [mem_append]
    exact .inl (.inr hmem)

theorem createdAt_mem_ownColumns {schema : SchemaDecl} (h : schema.createdAt = some col) :
    col ∈ schema.ownColumns := by
  simp [SchemaDecl.ownColumns, h]

theorem get_foldl_dropSibling (scalars : Fields) (sibs : List SiblingSchema) (own : SetStage)
    {k : String} (hk : k ∉ sibs.flatMap (columns ·.fields)) :
    (sibs.foldl (dropSibling scalars) own).get k = own.get k := by
  induction sibs generalizing own with
  | nil => rfl
  | cons sib sibs ih =>
    rw [flatMap_cons, mem_append, not_or] at hk
    rw [foldl_cons, ih _ hk.2]
    simp only [dropSibling]
    split_ifs
    · refine foldlRecOn (motive := fun own' => get own' k = own.get k) _ _ rfl fun own' h c hc => ?_
      have hne : c ≠ k := by
        rintro rfl
        exact hk.1 (mem_filter.1 hc).1
      rw [get_set_ne _ _ hne, h]
    · rfl

theorem get_ownSet_createdAt (ev : Payload) (h : schema.createdAt = some col) :
    (ownSet schema ev).get col = (ev.scalars.get col).map .lit := by
  have hmem := createdAt_mem_ownColumns h
  have hbase := (schema.ownColumn_disjoint hmem).1
  have hrev : col ≠ schema.revisionColumn := by
    rintro rfl
    exact schema.revision_not_key (mem_append_left _ (mem_append_left _ hmem))
  obtain ⟨hid, hsib⟩ := createdAt_ne h
  have hown : (schema.siblings.foldl (dropSibling ev.scalars) ((ev.scalars.filter fun p =>
      p.1 ≠ schema.revisionColumn ∧ p.1 ∉ schema.sharedBaseBusinessColumns).map
        fun p => (p.1, Expr.lit p.2))).get col = (ev.scalars.get col).map .lit := by
    rw [get_foldl_dropSibling _ _ _ hsib, get_map _ fun _ v => Expr.lit v,
      get_filter_key _ (fun k => decide (k ≠ schema.revisionColumn ∧
        k ∉ schema.sharedBaseBusinessColumns)), if_pos (by simp [hrev, hbase])]
  simp only [ownSet]
  split_ifs
  · exact hown
  · rw [get_set_ne _ _ (Ne.symm hid), hown]

/-- An event that is not older than the document sets the creation instant it carries. -/
theorem Projected.createdAt (hp : Projected schema ev d d') (h : schema.createdAt = some col) :
    d'.get col = match ev.scalars.get col with
      | some v => if Query.storedRevision d docRevisionField ≤ ev.ids.revision then some v
        else d.get col
      | none => d.get col := by
  have hmem := createdAt_mem_ownColumns h
  have hdisj := schema.ownColumn_disjoint hmem
  have hget := get_ownSet_createdAt ev h
  cases hv : ev.scalars.get col with
  | some v =>
    rw [hv] at hget
    exact hp.own col (.lit v) hget
  | none =>
    rw [hv, map_none, get_eq_none_iff] at hget
    have hrev := (revision_not_key schema).1
    have hbase := (baseRevision_not_key schema).1
    exact hp.other col hget ((setsColumns_baseSet _ _).not_mem_keys hdisj.1) hdisj.2
      (fun he => hrev (he ▸ hmem)) fun he => hbase (he ▸ hmem)

end

/-! ### The handshake -/

/-- Where the processing of a deletion stands. -/
inductive DeletePhase where
  | pending
  | stamped
  | finished
  deriving DecidableEq, Repr

/-- Where an upsert stands: before its write, before it reads the tombstone, before it removes what
it wrote, or done. -/
inductive UpsertPhase where
  | pending
  | written
  | checked (tombstone : Option Tombstone)
  | finished
  deriving DecidableEq, Repr

/-- One upsert of the document by an event. -/
structure Upsert where
  event : Payload
  phase : UpsertPhase := .pending
  deriving DecidableEq

/-- The two records of the store, and everybody at work on them. -/
structure HandshakeState where
  doc : Option Doc := none
  tombstone : Option Tombstone := none
  deletion : DeletePhase := .pending
  upserts : List Upsert := []

/-- One store operation: of the deletion, or of the upsert at a position. -/
inductive HandshakeAction where
  | stampTombstone
  | deleteGuarded
  | applyProjection (i : ℕ)
  | readTombstone (i : ℕ)
  | removeZombie (i : ℕ)
  deriving DecidableEq, Repr

/-- The operation of the upsert `u` at position `i`. -/
def stepUpsert (schema : SchemaDecl) (id : String) (s : HandshakeState) (i : ℕ) (u : Upsert) :
    HandshakeAction → Option HandshakeState
  | .applyProjection _ =>
    if u.phase = .pending then
      match Query.applyProjection s.doc id (buildProjectionStages schema u.event) true with
      | .ok doc => some { s with doc, upserts := s.upserts.set i { u with phase := .written } }
      | .error _ => some { s with upserts := s.upserts.set i { u with phase := .finished } }
    else none
  | .readTombstone _ =>
    if u.phase = .written then
      some { s with upserts := s.upserts.set i { u with phase := .checked s.tombstone } }
    else none
  | .removeZombie _ =>
    match u.phase with
    | .checked tombstone =>
      some { s with
        doc := (checkTombstone { doc := s.doc, tombstone } u.event.ids.revision).doc
        upserts := s.upserts.set i { u with phase := .finished } }
    | _ => none
  | .stampTombstone | .deleteGuarded => none

/-- A deletion at a revision of a row born at an instant, and any number of upserts. -/
def handshakeMachine (schema : SchemaDecl) (id : String) (rev createdAt : ℕ) :
    Machine HandshakeState HandshakeAction where
  step s a :=
    match a with
    | .stampTombstone =>
      if s.deletion = .pending then
        some { s with
          tombstone := Query.stampTombstone s.tombstone rev createdAt
          deletion := .stamped }
      else none
    | .deleteGuarded =>
      if s.deletion = .stamped then
        some { s with
          doc := Query.deleteGuarded s.doc rev createdAt
          deletion := .finished }
      else none
    | .applyProjection i | .readTombstone i | .removeZombie i =>
      s.upserts[i]?.bind fun u => stepUpsert schema id s i u a

/-- Every operation has been made. -/
def HandshakeState.Finished (s : HandshakeState) : Prop :=
  s.deletion = .finished ∧ ∀ u ∈ s.upserts, u.phase = .finished

instance (s : HandshakeState) : Decidable s.Finished := inferInstanceAs (Decidable (_ ∧ _))

/-- The two promises of the handshake: when all have finished the document is gone, unless there
was a write of a later revision; and what such a write left stays. -/
structure Settles (rev : ℕ) (s : HandshakeState) : Prop where
  gone : (∀ u ∈ s.upserts, u.event.ids.revision ≤ rev) → s.Finished → s.doc = none
  kept : ∀ u ∈ s.upserts, rev < u.event.ids.revision → u.phase ≠ .pending →
    ∃ d ∈ s.doc, (u.event.ids.revision : ℤ) ≤ storedRevision d docRevisionField

/-- What a step of the upsert `u` does to the document, and the phase it moves to. -/
inductive UpsertMove (schema : SchemaDecl) (id : String) (s : HandshakeState) (u : Upsert) :
    Option Doc → UpsertPhase → Prop
  | write {doc : Option Doc} (h : u.phase = .pending)
      (hdoc : Query.applyProjection s.doc id (buildProjectionStages schema u.event) true =
        .ok doc) : UpsertMove schema id s u doc .written
  | fail {m : String} (h : u.phase = .pending)
      (hdoc : Query.applyProjection s.doc id (buildProjectionStages schema u.event) true =
        .error m) : UpsertMove schema id s u s.doc .finished
  | read (h : u.phase = .written) : UpsertMove schema id s u s.doc (.checked s.tombstone)
  | remove {t : Option Tombstone} (h : u.phase = .checked t) :
      UpsertMove schema id s u
        (checkTombstone { doc := s.doc, tombstone := t } u.event.ids.revision).doc .finished

theorem handshake_step_ok {schema : SchemaDecl} {id : String} {rev createdAt : ℕ}
    {s s' : HandshakeState} {a : HandshakeAction}
    (h : (handshakeMachine schema id rev createdAt).step s a = some s') :
    (s.deletion = .pending ∧ s' = { s with
      tombstone := stampTombstone s.tombstone rev createdAt
      deletion := .stamped }) ∨
    (s.deletion = .stamped ∧ s' = { s with
      doc := deleteGuarded s.doc rev createdAt
      deletion := .finished }) ∨
    ∃ i u doc phase, s.upserts[i]? = some u ∧ UpsertMove schema id s u doc phase ∧
      s' = { s with doc, upserts := s.upserts.set i { u with phase } } := by
  cases a
  case stampTombstone =>
    obtain ⟨hd, h⟩ := ite_none_right_eq_some.1 h
    exact .inl ⟨hd, (some.inj h).symm⟩
  case deleteGuarded =>
    obtain ⟨hd, h⟩ := ite_none_right_eq_some.1 h
    exact .inr (.inl ⟨hd, (some.inj h).symm⟩)
  all_goals
    rename_i i
    obtain ⟨u, hu, h⟩ := bind_eq_some_iff.1 h
    refine .inr (.inr ⟨i, u, ?_⟩)
    simp only [stepUpsert] at h
  case applyProjection =>
    split_ifs at h with hp
    split at h
    · exact ⟨_, _, hu, .write hp ‹_›, (some.inj h).symm⟩
    · exact ⟨_, _, hu, .fail hp ‹_›, (some.inj h).symm⟩
  case readTombstone =>
    split_ifs at h with hp
    exact ⟨_, _, hu, .read hp, (some.inj h).symm⟩
  case removeZombie =>
    split at h
    · exact ⟨_, _, hu, .remove ‹_›, (some.inj h).symm⟩
    · cases h

/-! ### Deletion by revision and incarnation -/

section

variable {schema : TableSchema} {d : Doc} {rev createdAt : ℕ}

theorem revisionAtMost_iff (hd : Watermarked d docRevisionField) :
    revisionAtMost d rev = true ↔ storedRevision d docRevisionField ≤ rev := by
  rcases hd with h | ⟨n, h⟩
  · simp only [revisionAtMost, storedRevision, h, true_iff]
    omega
  · simp [revisionAtMost, storedRevision, h]

theorem deleteGuarded_of_lt (hd : Watermarked d docRevisionField)
    (h : (rev : ℤ) < storedRevision d docRevisionField) :
    deleteGuarded (some d) rev createdAt = some d := by
  have : revisionAtMost d rev = false := by
    rw [Bool.eq_false_iff, ne_eq, revisionAtMost_iff hd]
    omega
  simp [deleteGuarded, this]

/-- The document carries no creation instant where the incarnation test looks for it, or one that
passes for this one. -/
def BornAt (createdAt : ℕ) (d : Doc) : Prop := sameIncarnation d createdAt = true

theorem bornAt_of_get
    (h : d.get incarnationField = none ∨ d.get incarnationField = some (.time createdAt)) :
    BornAt createdAt d := by
  rw [incarnationField] at h
  rcases h with h | h
  · simp only [BornAt, sameIncarnation, h]
  · simp only [BornAt, sameIncarnation, h, Bool.and_eq_true, decide_eq_true_eq]
    omega

theorem BornAt.congr {d' : Doc} (hd : BornAt createdAt d)
    (h : d'.get incarnationField = d.get incarnationField) : BornAt createdAt d' := by
  rw [incarnationField] at h
  rwa [BornAt, sameIncarnation, h]

theorem deleteGuarded_of_le (hd : Watermarked d docRevisionField)
    (h : storedRevision d docRevisionField ≤ rev) (hborn : createdAt = 0 ∨ BornAt createdAt d) :
    deleteGuarded (some d) rev createdAt = none := by
  have hrev := (revisionAtMost_iff hd).2 h
  rcases hborn with rfl | hborn
  · simp [deleteGuarded, hrev]
  · rw [BornAt] at hborn
    simp [deleteGuarded, hrev, hborn]

end

section

variable {schema : TableSchema} {id : String} {rev createdAt : ℕ}

/-- What holds of the records and of the upserts whatever the revisions are. -/
structure HandshakeSound (schema : TableSchema) (rev createdAt : ℕ) (s : HandshakeState) :
    Prop where
  doc : ∀ d ∈ s.doc, Projectable schema d
  tombstone : ∀ t ∈ s.tombstone, t = ⟨rev, createdAt⟩
  checked : ∀ u ∈ s.upserts, ∀ t, u.phase = .checked (some t) → t = ⟨rev, createdAt⟩
  events : ∀ u ∈ s.upserts, WellFormed schema u.event
  kept : ∀ u ∈ s.upserts, rev < u.event.ids.revision → u.phase ≠ .pending →
    ∃ d ∈ s.doc, (u.event.ids.revision : ℤ) ≤ storedRevision d docRevisionField

variable {a : HandshakeAction} {s s' : HandshakeState}

theorem UpsertMove.doc {u : Upsert} {doc : Option Doc} {phase : UpsertPhase}
    (h : UpsertMove schema id s u doc phase) (hs : HandshakeSound schema rev createdAt s)
    (hu : u ∈ s.upserts) :
    (∀ d ∈ doc, Projectable schema d) ∧
    (∀ n : ℕ, rev < n → (∃ d ∈ s.doc, (n : ℤ) ≤ storedRevision d docRevisionField) →
      ∃ d ∈ doc, (n : ℤ) ≤ storedRevision d docRevisionField) ∧
    (u.phase = .pending → ∃ d ∈ doc, (u.event.ids.revision : ℤ) ≤
      storedRevision d docRevisionField) := by
  cases h with
  | write hp hdoc =>
    obtain ⟨d', hd', hproj⟩ := applyProjection_event (hs.events u hu) hs.doc
    rw [hd'] at hdoc
    cases hdoc
    refine ⟨?_, fun n hn hold => ⟨d', rfl, ?_⟩, fun _ => ⟨d', rfl, ?_⟩⟩
    · intro d hd
      rw [← mem_some.1 hd]
      exact hproj.projectable (projectable_getD hs.doc)
    · obtain ⟨d, hd, hle⟩ := hold
      rw [hproj.storedRevision, hd, getD_some]
      omega
    · rw [hproj.storedRevision]
      omega
  | fail hp hdoc =>
    obtain ⟨d', hd', -⟩ := applyProjection_event (hs.events u hu) hs.doc
    rw [hd'] at hdoc
    cases hdoc
  | read hp => exact ⟨hs.doc, fun n _ h => h, fun h => by simp [hp] at h⟩
  | @remove t hp =>
    have hdel : ∀ t', (checkTombstone { doc := s.doc, tombstone := t' } u.event.ids.revision).doc =
        s.doc ∨ ∃ t'' ∈ t', (checkTombstone { doc := s.doc, tombstone := t' }
          u.event.ids.revision).doc = deleteGuarded s.doc t''.revision t''.createdAt := by
      intro t'
      cases t' with
      | none => exact .inl rfl
      | some t' =>
        simp only [checkTombstone]
        split_ifs
        · exact .inl rfl
        · exact .inr ⟨t', rfl, rfl⟩
    refine ⟨fun d hd => ?_, fun n hn hold => ?_, fun h => by simp [hp] at h⟩
    · rcases hdel t with heq | ⟨t', -, heq⟩
      · exact hs.doc d (heq ▸ hd)
      · rw [heq] at hd
        exact hs.doc d (mem_filter_iff.1 hd).1
    · rcases hdel t with heq | ⟨t', ht', heq⟩
      · rw [heq]
        exact hold
      · obtain ⟨d, hd, hle⟩ := hold
        obtain rfl := hs.checked u hu t' (by rw [hp, ht'])
        rw [heq, hd]
        refine ⟨d, ?_, hle⟩
        have hlt : (rev : ℤ) < storedRevision d docRevisionField := by omega
        exact deleteGuarded_of_lt (hs.doc d hd).revision hlt

theorem stampTombstone_same {tombstone : Option Tombstone}
    (h : ∀ t ∈ tombstone, t = ⟨rev, createdAt⟩) :
    stampTombstone tombstone rev createdAt = some ⟨rev, createdAt⟩ := by
  cases tombstone with
  | none => rfl
  | some t =>
    obtain rfl := h t rfl
    simp [stampTombstone]

/-- **Step.** -/
theorem HandshakeSound.step (hs : HandshakeSound schema rev createdAt s)
    (hstep : (handshakeMachine schema id rev createdAt).step s a = some s') :
    HandshakeSound schema rev createdAt s' := by
  rcases handshake_step_ok hstep with ⟨-, rfl⟩ | ⟨-, rfl⟩ | ⟨i, u, doc, phase, hu, hmove, rfl⟩
  · refine ⟨hs.doc, fun t ht => ?_, hs.checked, hs.events, hs.kept⟩
    rw [stampTombstone_same hs.tombstone] at ht
    exact (mem_some.1 ht).symm
  · refine ⟨fun d hd => hs.doc d (mem_filter_iff.1 hd).1, hs.tombstone, hs.checked,
      hs.events, fun u hu hlt hp => ?_⟩
    obtain ⟨d, hd, hle⟩ := hs.kept u hu hlt hp
    refine ⟨d, ?_, hle⟩
    have hlt : (rev : ℤ) < storedRevision d docRevisionField := by omega
    simp only [show s.doc = some d from hd]
    exact deleteGuarded_of_lt (hs.doc d hd).revision hlt
  · have humem := mem_of_getElem? hu
    obtain ⟨hdoc, hkeep, hnew⟩ := hmove.doc hs humem
    refine ⟨hdoc, hs.tombstone, fun v hv t ht => ?_, fun v hv => ?_, fun v hv hlt hp => ?_⟩
    · rcases mem_or_eq_of_mem_set hv with hv | rfl
      · exact hs.checked v hv t ht
      · cases hmove with
        | read hp => exact hs.tombstone t (by simpa using ht)
        | _ => cases ht
    · rcases mem_or_eq_of_mem_set hv with hv | rfl
      · exact hs.events v hv
      · exact hs.events u humem
    · rcases mem_or_eq_of_mem_set hv with hv | rfl
      · exact hkeep _ hlt (hs.kept v hv hlt hp)
      · by_cases hpu : u.phase = .pending
        · exact hnew hpu
        · exact hkeep _ hlt (hs.kept u humem hlt hpu)

theorem events_of_step {schema : SchemaDecl}
    (hstep : (handshakeMachine schema id rev createdAt).step s a = some s') :
    s'.upserts.map Upsert.event = s.upserts.map Upsert.event := by
  rcases handshake_step_ok hstep with ⟨-, rfl⟩ | ⟨-, rfl⟩ | ⟨i, u, doc, phase, hu, -, rfl⟩
  · rfl
  · rfl
  · obtain ⟨hi, rfl⟩ := List.getElem?_eq_some_iff.1 hu
    rw [map_set, ← getElem_map Upsert.event, set_getElem_self]
    simpa using hi

/-! ### One life -/

/-- The incarnation test reads the CreatedAt column, or finds nothing to read. -/
def IncarnationReadable (schema : SchemaDecl) : Prop :=
  ∀ col ∈ schema.createdAt, col = incarnationField ∨ incarnationField ∉ schema.documentKeys

instance (schema : SchemaDecl) : Decidable (IncarnationReadable schema) :=
  inferInstanceAs (Decidable (∀ col ∈ schema.createdAt, _))

/-- The event is of the life born at an instant: a creation instant it carries passes for this
one. -/
def OfLife (schema : SchemaDecl) (createdAt : ℕ) (ev : Payload) : Prop :=
  ∀ col ∈ schema.createdAt, ∀ v, ev.scalars.get col = some v →
    BornAt createdAt [(incarnationField, v)]

theorem Projected.bornAt (hread : IncarnationReadable schema) {col : String}
    (hcol : schema.createdAt = some col) {ev : Payload} {d d' : Doc} (hev : WellFormed schema ev)
    (hlife : OfLife schema createdAt ev) (hp : Projected schema ev d d')
    (hd : BornAt createdAt d) : BornAt createdAt d' := by
  rcases hread col hcol with rfl | hfree
  · have hget := hp.createdAt hcol
    cases hv : ev.scalars.get incarnationField with
    | none =>
      rw [hv] at hget
      exact hd.congr hget
    | some v =>
      rw [hv] at hget
      dsimp only at hget
      split_ifs at hget
      · exact (hlife _ hcol v hv).congr hget
      · exact hd.congr hget
  · simp only [SchemaDecl.documentKeys, mem_append, not_or] at hfree
    have hget := hp.other incarnationField ((setsColumns_ownSet hev).not_mem_keys hfree.1.1)
      ((setsColumns_baseSet _ _).not_mem_keys hfree.1.2) hfree.2 (by decide) (by decide)
    exact hd.congr hget

/-- While the document is there, somebody is still to remove it. -/
structure HandshakeLive (schema : TableSchema) (rev createdAt : ℕ) (s : HandshakeState) :
    Prop where
  sound : HandshakeSound schema rev createdAt s
  life : ∀ u ∈ s.upserts, u.event.ids.revision ≤ rev ∧ OfLife schema.toSchemaDecl createdAt u.event
  doc : ∀ d ∈ s.doc, storedRevision d docRevisionField ≤ rev ∧ (createdAt = 0 ∨ BornAt createdAt d)
  stamped : s.deletion ≠ .pending → s.tombstone = some ⟨rev, createdAt⟩
  remover : s.doc ≠ none → s.deletion ≠ .finished ∨
    ∃ u ∈ s.upserts, u.phase = .written ∨ u.phase = .checked (some ⟨rev, createdAt⟩)

theorem HandshakeLive.deleteGuarded (hs : HandshakeLive schema rev createdAt s) :
    Query.deleteGuarded s.doc rev createdAt = none := by
  cases hd : s.doc with
  | none => rfl
  | some d =>
    obtain ⟨hle, hborn⟩ := hs.doc d hd
    exact deleteGuarded_of_le (hs.sound.doc d hd).revision hle hborn

theorem HandshakeLive.written (hread : IncarnationReadable schema)
    (hnone : schema.createdAt = none → createdAt = 0) (hs : HandshakeLive schema rev createdAt s)
    {u : Upsert} (hu : u ∈ s.upserts) {d' : Doc}
    (hp : Projected schema u.event (s.doc.getD [("_id", .str id)]) d') :
    storedRevision d' docRevisionField ≤ rev ∧ (createdAt = 0 ∨ BornAt createdAt d') := by
  obtain ⟨hrev, hlife⟩ := hs.life u hu
  have hold : storedRevision (s.doc.getD [("_id", .str id)]) docRevisionField ≤ rev ∧
      (createdAt = 0 ∨ BornAt createdAt (s.doc.getD [("_id", .str id)])) := by
    cases hd : s.doc with
    | none => exact ⟨by simp [storedRevision, docRevisionField, get_cons], .inr rfl⟩
    | some d => exact hs.doc d hd
  refine ⟨by rw [hp.storedRevision]; omega, ?_⟩
  cases hcol : schema.createdAt with
  | none => exact .inl (hnone hcol)
  | some col =>
    rcases hold.2 with hzero | hborn
    · exact .inl hzero
    · exact .inr (hp.bornAt hread hcol (hs.sound.events u hu) hlife hborn)

/-- **Step.** -/
theorem HandshakeLive.step (hrev : 0 < rev) (hread : IncarnationReadable schema)
    (hnone : schema.createdAt = none → createdAt = 0) (hs : HandshakeLive schema rev createdAt s)
    (hstep : (handshakeMachine schema id rev createdAt).step s a = some s') :
    HandshakeLive schema rev createdAt s' := by
  have hsound := hs.sound.step hstep
  rcases handshake_step_ok hstep with ⟨-, rfl⟩ | ⟨hdel, rfl⟩ | ⟨i, u, doc, phase, hu, hmove, rfl⟩
  · exact ⟨hsound, hs.life, hs.doc, fun _ => stampTombstone_same hs.sound.tombstone,
      fun _ => .inl nofun⟩
  · refine ⟨hsound, hs.life, fun d hd => ?_, fun _ => hs.stamped (by rw [hdel]; nofun),
      fun h => absurd hs.deleteGuarded h⟩
    rw [hs.deleteGuarded] at hd
    cases hd
  · have humem := mem_of_getElem? hu
    have hlife : ∀ v ∈ s.upserts.set i { u with phase }, v.event.ids.revision ≤ rev ∧
        OfLife schema createdAt v.event := by
      intro v hv
      rcases mem_or_eq_of_mem_set hv with hv | rfl
      · exact hs.life v hv
      · exact hs.life u humem
    have hlen : i < s.upserts.length := (List.getElem?_eq_some_iff.1 hu).1
    have hmoved : ({ u with phase } : Upsert) ∈ s.upserts.set i { u with phase } := mem_set hlen _
    -- an upsert elsewhere that is still to remove the document stays one
    have hother : ∀ v ∈ s.upserts, v ≠ u → v ∈ s.upserts.set i { u with phase } := by
      intro v hv hne
      obtain ⟨j, hj, rfl⟩ := getElem_of_mem hv
      have hij : i ≠ j := by
        rintro rfl
        rw [getElem?_eq_getElem hj] at hu
        exact hne (some.inj hu)
      exact mem_iff_getElem.2 ⟨j, by simpa using hj, by simp [hij]⟩
    cases hmove with
    | write hp hdoc =>
      obtain ⟨d', hd', hproj⟩ := applyProjection_event (hs.sound.events u humem) hs.sound.doc
      rw [hd'] at hdoc
      cases hdoc
      refine ⟨hsound, hlife, fun d hd => ?_, hs.stamped, fun _ => .inr ⟨_, hmoved, .inl rfl⟩⟩
      rw [← mem_some.1 hd]
      exact hs.written hread hnone humem hproj
    | fail hp hdoc =>
      obtain ⟨d', hd', -⟩ := applyProjection_event (hs.sound.events u humem) hs.sound.doc
      rw [hd'] at hdoc
      cases hdoc
    | read hp =>
      refine ⟨hsound, hlife, hs.doc, hs.stamped, fun hdoc => ?_⟩
      by_cases hfin : s.deletion = .finished
      · have hstamp := hs.stamped (by rw [hfin]; nofun)
        exact .inr ⟨_, hmoved, .inr (by rw [hstamp])⟩
      · exact .inl hfin
    | @remove t hp =>
      cases t with
      | none =>
        refine ⟨hsound, hlife, hs.doc, hs.stamped, fun hdoc => ?_⟩
        rcases hs.remover hdoc with hfin | ⟨v, hv, hph⟩
        · exact .inl hfin
        · refine .inr ⟨v, hother v hv ?_, hph⟩
          rintro rfl
          simp [hp] at hph
      | some t =>
        obtain rfl := hs.sound.checked u humem t hp
        have hgone : (checkTombstone { doc := s.doc, tombstone := some ⟨rev, createdAt⟩ }
            u.event.ids.revision).doc = none := by
          have hle := (hs.life u humem).1
          simp only [checkTombstone]
          rw [if_neg (by omega)]
          exact hs.deleteGuarded
        refine ⟨hsound, hlife, fun d hd => ?_, hs.stamped, fun h => absurd hgone h⟩
        rw [hgone] at hd
        cases hd

/-- **The handshake.**  In every interleaving of the deletion of a row with upserts of its
document, once all have finished the document is gone if no upsert is of a later revision, and an
upsert of a later revision is never removed. -/
theorem deleted_of_handshake (hread : IncarnationReadable schema.toSchemaDecl) (hrev : 0 < rev)
    (hnone : schema.createdAt = none → createdAt = 0) {doc : Option Doc}
    (hdoc : ∀ d ∈ doc, Projectable schema d ∧ storedRevision d docRevisionField ≤ rev ∧
      (createdAt = 0 ∨ BornAt createdAt d)) {evs : List Payload}
    (hevs : ∀ ev ∈ evs, WellFormed schema ev ∧ OfLife schema.toSchemaDecl createdAt ev)
    {as : List HandshakeAction} {s : HandshakeState}
    (hrun : (handshakeMachine schema.toSchemaDecl id rev createdAt).run
      { doc, upserts := evs.map fun ev => { event := ev } } as = some s) : Settles rev s := by
  have hsound : HandshakeSound schema rev createdAt
      { doc, upserts := evs.map fun ev => { event := ev } } := by
    refine ⟨fun d hd => (hdoc d hd).1, nofun, fun u hu t ht => ?_, fun u hu => ?_,
      fun u hu _ hp => ?_⟩ <;> obtain ⟨ev, hev, rfl⟩ := mem_map.1 hu
    · cases ht
    · exact (hevs ev hev).1
    · exact absurd rfl hp
  have hreach : (handshakeMachine schema id rev createdAt).Reachable _ s := ⟨as, hrun⟩
  refine ⟨fun hle hfin => ?_, (hreach.invariant (fun _ _ _ h hstep => h.step hstep) hsound).kept⟩
  have hevents : s.upserts.map Upsert.event = evs := by
    refine hreach.invariant (fun t a t' ht hstep => (events_of_step hstep).trans ht) ?_
    simp [Function.comp_def]
  have hlive : HandshakeLive schema rev createdAt
      { doc, upserts := evs.map fun ev => { event := ev } } := by
    refine ⟨hsound, fun u hu => ?_, fun d hd => (hdoc d hd).2,
      fun h => absurd rfl h, fun _ => .inl nofun⟩
    obtain ⟨ev, hev, rfl⟩ := mem_map.1 hu
    obtain ⟨v, hv, rfl⟩ := mem_map.1 (hevents ▸ hev)
    exact ⟨hle v hv, (hevs _ hev).2⟩
  have hend := hreach.invariant (fun _ _ _ h hstep => h.step hrev hread hnone hstep) hlive
  by_contra hsome
  rcases hend.remover hsome with hdel | ⟨u, hu, hph⟩
  · exact hdel hfin.1
  · have := hfin.2 u hu
    rcases hph with hph | hph <;> simp [this] at hph

end

/-- An order, with the instant of its creation in a column of its own. -/
def orderSchema (createdAt : String) (fields : List SchemaField) : SchemaDecl where
  table := "orders"
  idColumn := "id"
  fields := fields
  revisionColumn := "revision"
  createdAt := some createdAt

/-- Orders dated by `created_at`. -/
def datedOrders : TableSchema where
  toSchemaDecl := orderSchema "created_at" [⟨"total", none⟩]

/-- The insertion of an order. -/
def orderInserted (createdAt : String) (born : ℕ) (scalars : Fields) : Payload where
  scalars := (createdAt, .time born) :: scalars
  ids := { id := "o", revision := 1 }

/-- A redelivered insertion between the tombstone and the deletion, and another one after. -/
theorem deleted_of_redelivered_insert :
    ∃ s, (handshakeMachine datedOrders.toSchemaDecl "o" 1 5000).run
        { upserts := [orderInserted "created_at" 5000 [], orderInserted "created_at" 5000 []].map
            fun ev => { event := ev } }
        [.stampTombstone, .applyProjection 0, .deleteGuarded, .readTombstone 0, .applyProjection 1,
          .removeZombie 0, .readTombstone 1, .removeZombie 1] = some s ∧ Settles 1 s := by
  have hlife : OfLife datedOrders 5000 (orderInserted "created_at" 5000 []) := by
    intro col hcol v hv
    cases hcol
    cases hv
    rfl
  have hwf : WellFormed datedOrders (orderInserted "created_at" 5000 []) :=
    ⟨by decide, by decide, by decide, by decide⟩
  have hread : IncarnationReadable datedOrders := by decide
  refine exists_run (fun _ => True) (by decide +kernel) fun s hs _ =>
    deleted_of_handshake hread (by decide) (fun h => by cases h) (fun d hd => by cases hd)
      (fun ev hev => ?_) hs
  obtain rfl : ev = orderInserted "created_at" 5000 [] := by simpa using hev
  exact ⟨hwf, hlife⟩

/-- Orders with a business column of the name the incarnation test reads. -/
def importedOrders : TableSchema where
  toSchemaDecl := orderSchema "inserted_at" [⟨"created_at", none⟩]

/-- The deletion of such an order leaves its document. -/
theorem survives_deletion_importedOrders :
    ∃ s, (handshakeMachine importedOrders.toSchemaDecl "o" 1 5000).run
        { upserts := [orderInserted "inserted_at" 5000 [("created_at", .str "2001")]].map
            fun ev => { event := ev } }
        [.applyProjection 0, .readTombstone 0, .removeZombie 0, .stampTombstone,
          .deleteGuarded] = some s ∧ ¬ Settles 1 s := by
  exact exists_run
    (fun s => (∀ u ∈ s.upserts, u.event.ids.revision ≤ 1) ∧ s.Finished ∧ s.doc ≠ none)
    (by decide +kernel) fun s _ ⟨hle, hfin, hdoc⟩ h => hdoc (h.gone hle hfin)

/-! ### Several lives -/

/-- The life of the document that has begun and not ended: its instant of birth and its last
revision. -/
structure Life where
  born : Instant
  revision : ℕ
  deriving DecidableEq

/-- The document with its tombstone, and what has been delivered: the life that is under way, the
birth of the last one that ended, the events of this life and those of the ended ones. -/
structure LivesState where
  view : ViewState := {}
  current : Option Life := none
  dead : Option Instant := none
  processed : List OutboxRow := []
  finished : List OutboxRow := []

/-- Delivery of the next event of the current life, or once more of an event of an ended one. -/
inductive LivesAction where
  | deliver (ev : OutboxRow)
  | redeliver (ev : OutboxRow)
  deriving DecidableEq

/-- The event of an action. -/
def LivesAction.event : LivesAction → OutboxRow
  | .deliver ev | .redeliver ev => ev

/-- The birth an insertion carries. -/
def birthOf (col : String) (ev : OutboxRow) : Option Instant :=
  match ev.payload.scalars.get col with
  | some (.time t) => if h : 0 < t then some ⟨t, h⟩ else none
  | _ => none

/-- What the next event makes of the life that is under way: an insertion at revision one, two
seconds after the birth of the last life; writes of growing revisions that carry no birth; and a
deletion with the last revision and the birth. -/
def nextLife (col : String) (s : LivesState) (ev : OutboxRow) : Option (Option Life) :=
  match s.current with
  | none =>
    (birthOf col ev).bind fun born =>
      if ev.eventType = .inserted ∧ ev.payload.ids.revision = 1 ∧
          ∀ b ∈ s.dead, (b : ℕ) + 2000 ≤ born then some (some ⟨born, 1⟩) else none
  | some life =>
    match ev.eventType with
    | .inserted => none
    | .deleted =>
      if ev.payload.ids.revision = life.revision ∧ ev.payload.ids.createdAt = some life.born then
        some none
      else none
    | .updated | .archived | .unarchived =>
      if life.revision < ev.payload.ids.revision ∧ ev.payload.scalars.get col = none then
        some (some { life with revision := ev.payload.ids.revision })
      else none

/-- The successive lives of a document in a view, `col` being the CreatedAt column. -/
def livesMachine (view : EntityView) (col : String) : Machine LivesState LivesAction where
  step s a :=
    match a with
    | .deliver ev =>
      (nextLife col s ev).bind fun current =>
        match projectOwnView view s.view ev with
        | .error _ => none
        | .ok v =>
          match s.current, current with
          | some life, none => some
            { view := v, current := none, dead := some life.born, processed := [],
              finished := s.finished ++ s.processed ++ [ev] }
          | _, _ => some { s with view := v, current, processed := s.processed ++ [ev] }
    | .redeliver ev =>
      if ev ∈ s.finished then
        match projectOwnView view s.view ev with
        | .error _ => none
        | .ok v => some { s with view := v }
      else none

/-- The document is there, with the birth of the life that is under way; between two lives it is
not. -/
def FollowsLife (col : String) (s : LivesState) : Prop :=
  match s.current with
  | none => s.view.doc = none
  | some life => ∃ d ∈ s.view.doc, d.get col = some (.time life.born)

instance (col : String) (s : LivesState) : Decidable (FollowsLife col s) := by
  unfold FollowsLife
  cases s.current <;> infer_instance

/-- A redelivered write of an ended life meets a document that is past it, or where there is none,
carries no birth or the one of the tombstone. -/
def Harmless (view : EntityView) (col : String) (s : LivesState) : LivesAction → Prop
  | .deliver _ => True
  | .redeliver ev =>
    shouldDeleteFromView ev.eventType view.deleteOnArchive = true ∨
    match s.view.doc with
    | some d => (ev.payload.ids.revision : ℤ) < storedRevision d docRevisionField
    | none => ∀ v ∈ ev.payload.scalars.get col, ∃ t ∈ s.view.tombstone, v = .time t.createdAt

instance (view : EntityView) (col : String) (s : LivesState) (a : LivesAction) :
    Decidable (Harmless view col s a) := by
  cases a with
  | deliver ev => exact .isTrue trivial
  | redeliver ev =>
    unfold Harmless
    cases s.view.doc <;> infer_instance

section

variable {view : EntityView} {s s' : LivesState} {ev : OutboxRow}

theorem deleteGuarded_of_later {d : Doc} {born createdAt : ℕ} (rev : ℕ)
    (hd : d.get incarnationField = some (.time born)) (hpos : 0 < createdAt)
    (hlater : createdAt + 2000 ≤ born) : deleteGuarded (some d) rev createdAt = some d := by
  have hinc : sameIncarnation d createdAt = false := by
    simp only [incarnationField] at hd
    simp only [sameIncarnation, hd, Bool.and_eq_false_iff, decide_eq_false_iff_not]
    omega
  have hne : createdAt ≠ 0 := by omega
  simp [deleteGuarded, hinc, hne]

/-- The tombstone is of a life that began two seconds before an instant. -/
def DeadBefore (tombstone : Option Tombstone) (dead : Option Instant) : Prop :=
  ∀ t ∈ tombstone, 0 < t.createdAt ∧ ∃ b ∈ dead, t.createdAt ≤ (b : ℕ)

variable {born : Instant}

variable {rev : ℕ}

theorem checkTombstone_of_later {v : ViewState} {d : Doc} {dead : Option Instant}
    (hd : d.get incarnationField = some (.time born)) (htomb : DeadBefore v.tombstone dead)
    (hlater : ∀ b ∈ dead, (b : ℕ) + 2000 ≤ born) :
    checkTombstone { v with doc := some d } rev = { v with doc := some d } := by
  cases ht : v.tombstone with
  | none => simp only [checkTombstone]
  | some t =>
    obtain ⟨hpos, b, hb, hle⟩ := htomb t ht
    have hb := hlater b hb
    have hspared := deleteGuarded_of_later t.revision hd hpos (by omega)
    simp only [checkTombstone, hspared, ite_self]

/-- The invariant of the lives: the tombstone covers every event of an ended life, and the document
is the one of the life that is under way, at its last revision. -/
structure LivesSound (view : EntityView) (s : LivesState) : Prop where
  tombstone : DeadBefore s.view.tombstone s.dead
  covered : ∀ ev ∈ s.finished, WellFormed view.schema ev.payload ∧ 0 < ev.payload.ids.revision ∧
    ∃ t ∈ s.view.tombstone, ev.payload.ids.revision ≤ t.revision
  deletions : ∀ ev ∈ s.finished, ev.eventType = .deleted →
    ∃ c ∈ ev.payload.ids.createdAt, ∃ b ∈ s.dead, (c : ℕ) ≤ b
  processed : ∀ ev ∈ s.processed, WellFormed view.schema ev.payload ∧
    0 < ev.payload.ids.revision ∧ ev.eventType ≠ .deleted ∧
    ∃ life ∈ s.current, ev.payload.ids.revision ≤ life.revision
  later : ∀ life ∈ s.current, 0 < life.revision ∧ ∀ b ∈ s.dead, (b : ℕ) + 2000 ≤ life.born
  between : s.current = none → s.view.doc = none
  doc : ∀ life ∈ s.current, ∃ d ∈ s.view.doc, Projectable view.schema d ∧
    storedRevision d docRevisionField = life.revision ∧
    d.get incarnationField = some (.time life.born)

theorem not_delete_of_keep (hkeep : view.deleteOnArchive = false)
    (htype : ev.eventType ≠ .deleted) :
    shouldDeleteFromView ev.eventType view.deleteOnArchive = false := by
  rw [hkeep]
  cases htype' : ev.eventType with
  | deleted => exact absurd htype' htype
  | _ => rfl

theorem projectOwnView_upsert (hkeep : view.deleteOnArchive = false) {v v' : ViewState}
    (hev : WellFormed view.schema ev.payload) (htype : ev.eventType ≠ .deleted)
    (hdoc : ∀ d ∈ v.doc, Projectable view.schema d) (h : projectOwnView view v ev = .ok v') :
    ∃ d', Projected view.schema ev.payload (v.doc.getD [("_id", .str ev.aggregateID)]) d' ∧
      v' = checkTombstone { v with doc := some d' } ev.payload.ids.revision := by
  have hdel := not_delete_of_keep hkeep htype
  obtain ⟨d', happly, hproj⟩ := applyProjection_event hev hdoc
  refine ⟨d', hproj, ?_⟩
  simp only [projectOwnView, hdel] at h
  rw [happly] at h
  exact (Except.ok.inj h).symm

theorem projectOwnView_deleted {v v' : ViewState} (htype : ev.eventType = .deleted)
    (hrev : 0 < ev.payload.ids.revision) (hborn : ev.payload.ids.createdAt = some born)
    (h : projectOwnView view v ev = .ok v') :
    v' = { v with
      tombstone := stampTombstone v.tombstone ev.payload.ids.revision born
      doc := deleteGuarded v.doc ev.payload.ids.revision born } := by
  simp only [projectOwnView, htype, shouldDeleteFromView, if_true, hborn, elim_some,
    applyDelete] at h
  rw [if_neg (by omega)] at h
  exact (Except.ok.inj h).symm

theorem birthOf_some {col : String} (h : birthOf col ev = some born) :
    ev.payload.scalars.get col = some (.time born) := by
  unfold birthOf at h
  split at h
  · split_ifs at h
    cases h
    assumption
  · cases h

/-- A tombstone that advances covers what it covered and the revision it is stamped with, and stays
one of an ended life. -/
theorem stampTombstone_spec {tombstone : Option Tombstone} {dead dead' : Option Instant}
    (h : DeadBefore tombstone dead) (hdead : ∀ b ∈ dead, ∃ b' ∈ dead', (b : ℕ) ≤ b')
    (hborn : ∃ b' ∈ dead', (born : ℕ) ≤ b') :
    DeadBefore (stampTombstone tombstone rev born) dead' ∧
    (∃ t ∈ stampTombstone tombstone rev born, rev ≤ t.revision) ∧
    ∀ n, (∃ t ∈ tombstone, n ≤ t.revision) →
      ∃ t ∈ stampTombstone tombstone rev born, n ≤ t.revision := by
  have hpos : 0 < (born : ℕ) := born.pos
  cases tombstone with
  | none =>
    refine ⟨fun t ht => ?_, ⟨_, rfl, Nat.le_refl _⟩, fun n hn => by simp at hn⟩
    obtain rfl := mem_some.1 ht
    exact ⟨hpos, hborn⟩
  | some t0 =>
    obtain ⟨hpos0, b, hb, hle⟩ := h t0 rfl
    obtain ⟨b', hb', hbb'⟩ := hdead b hb
    simp only [stampTombstone, if_neg (Nat.pos_iff_ne_zero.1 hpos)]
    split_ifs with hadv
    · refine ⟨fun t ht => ?_, ⟨_, rfl, Nat.le_refl _⟩, fun n hn => ⟨_, rfl, ?_⟩⟩
      · obtain rfl := mem_some.1 ht
        exact ⟨hpos, hborn⟩
      · obtain ⟨t, ht, hn⟩ := hn
        obtain rfl := mem_some.1 ht
        exact hn.trans hadv
    · refine ⟨fun t ht => ?_, ⟨t0, rfl, by omega⟩, fun n hn => hn⟩
      obtain rfl := mem_some.1 ht
      exact ⟨hpos0, b', hb', by omega⟩

section

variable (hkeep : view.deleteOnArchive = false)
  (hcol : view.schema.createdAt = some incarnationField)
include hkeep hcol

variable {v : ViewState}

section

variable (hs : LivesSound view s) (hev : WellFormed view.schema ev.payload)
include hs hev

theorem LivesSound.birth {born : Instant} (hcur : s.current = none)
    (htype : ev.eventType = .inserted) (hrev : ev.payload.ids.revision = 1)
    (hborn : ev.payload.scalars.get incarnationField = some (.time born))
    (hlater : ∀ b ∈ s.dead, (b : ℕ) + 2000 ≤ born) (hv : projectOwnView view s.view ev = .ok v) :
    LivesSound view
      { s with view := v, current := some ⟨born, 1⟩, processed := s.processed ++ [ev] } := by
  have hnone := hs.between hcur
  obtain ⟨d', hproj, rfl⟩ := projectOwnView_upsert hkeep hev (by simp [htype])
    (fun d hd => by rw [hnone] at hd; cases hd) hv
  rw [hnone, getD_none] at hproj
  have hget : d'.get incarnationField = some (.time born) := by
    rw [hproj.createdAt hcol, hborn]
    simp [storedRevision, docRevisionField, get_cons]
  have hstored : storedRevision d' docRevisionField = 1 := by
    rw [hproj.storedRevision, hrev]
    simp [storedRevision, docRevisionField, get_cons]
  rw [checkTombstone_of_later hget hs.tombstone hlater]
  refine ⟨hs.tombstone, hs.covered, hs.deletions, fun e he => ?_, fun life hl => ?_, by simp,
    fun life hl => ?_⟩
  · rcases mem_concat.1 he with he | rfl
    · obtain ⟨-, -, -, life, hl, -⟩ := hs.processed e he
      rw [hcur] at hl
      cases hl
    · exact ⟨hev, by omega, by simp [htype], _, rfl, by rw [hrev]⟩
  · cases hl
    exact ⟨Nat.one_pos, hlater⟩
  · cases hl
    exact ⟨d', rfl, hproj.projectable projectable_new, hstored, hget⟩

theorem LivesSound.write {life : Life} (hcur : s.current = some life)
    (htype : ev.eventType ≠ .deleted) (hrev : life.revision < ev.payload.ids.revision)
    (hborn : ev.payload.scalars.get incarnationField = none)
    (hv : projectOwnView view s.view ev = .ok v) :
    LivesSound view { s with
      view := v
      current := some { life with revision := ev.payload.ids.revision }
      processed := s.processed ++ [ev] } := by
  obtain ⟨d, hd, hprojectable, hstored, hget⟩ := hs.doc life hcur
  obtain ⟨hpos, hlater⟩ := hs.later life hcur
  obtain ⟨d', hproj, rfl⟩ := projectOwnView_upsert hkeep hev htype
    (fun e he => by rw [hd] at he; cases he; exact hprojectable) hv
  rw [hd, getD_some] at hproj
  have hget' : d'.get incarnationField = some (.time life.born) := by
    rw [hproj.createdAt hcol, hborn, hget]
  rw [checkTombstone_of_later hget' hs.tombstone hlater]
  refine ⟨hs.tombstone, hs.covered, hs.deletions, fun e he => ?_, fun l hl => ?_, nofun,
    fun l hl => ?_⟩
  · rcases mem_concat.1 he with he | rfl
    · obtain ⟨hwf, hp, ht, l, hl, hle⟩ := hs.processed e he
      rw [hcur] at hl
      cases hl
      exact ⟨hwf, hp, ht, _, rfl, by dsimp only; omega⟩
    · exact ⟨hev, by omega, htype, _, rfl, Nat.le_refl _⟩
  · cases hl
    exact ⟨by dsimp only; omega, hlater⟩
  · cases hl
    refine ⟨d', rfl, hproj.projectable hprojectable, ?_, hget'⟩
    rw [hproj.storedRevision, hstored]
    dsimp only
    omega

omit hkeep hcol in
theorem LivesSound.death {life : Life} (hcur : s.current = some life)
    (htype : ev.eventType = .deleted) (hrev : ev.payload.ids.revision = life.revision)
    (hborn : ev.payload.ids.createdAt = some life.born)
    (hv : projectOwnView view s.view ev = .ok v) :
    LivesSound view
      { view := v, current := none, dead := some life.born, processed := [],
        finished := s.finished ++ s.processed ++ [ev] } := by
  obtain ⟨d, hd, hprojectable, hstored, hget⟩ := hs.doc life hcur
  obtain ⟨hpos, hlater⟩ := hs.later life hcur
  obtain rfl := projectOwnView_deleted htype (by omega) hborn hv
  have hdead : ∀ b ∈ s.dead, ∃ b' ∈ some life.born, (b : ℕ) ≤ b' :=
    fun b hb => ⟨_, rfl, by have := hlater b hb; omega⟩
  obtain ⟨htomb, ⟨t, ht, hle⟩, hcover⟩ :=
    stampTombstone_spec hs.tombstone hdead ⟨_, rfl, Nat.le_refl _⟩
  refine ⟨htomb, fun e he => ?_, fun e he hdel => ?_, nofun, nofun, fun _ => ?_, nofun⟩
  · rcases mem_concat.1 he with he | rfl
    · rcases mem_append.1 he with he | he
      · obtain ⟨hwf, hp, hc⟩ := hs.covered e he
        exact ⟨hwf, hp, hcover _ hc⟩
      · obtain ⟨hwf, hp, -, l, hl, hle'⟩ := hs.processed e he
        rw [hcur] at hl
        cases hl
        exact ⟨hwf, hp, t, ht, by omega⟩
    · exact ⟨hev, by omega, t, ht, hle⟩
  · rcases mem_concat.1 he with he | rfl
    · rcases mem_append.1 he with he | he
      · obtain ⟨c, hc, b, hb, hcb⟩ := hs.deletions e he hdel
        obtain ⟨b', hb', hbb'⟩ := hdead b hb
        exact ⟨c, hc, b', hb', hcb.trans hbb'⟩
      · exact absurd hdel (hs.processed e he).2.2.1
    · exact ⟨_, hborn, _, rfl, Nat.le_refl _⟩
  · rw [hd]
    exact deleteGuarded_of_le hprojectable.revision (by omega) (.inr (bornAt_of_get (.inr hget)))

end

variable (hs : LivesSound view s) (hmem : ev ∈ s.finished)
  (hv : projectOwnView view s.view ev = .ok v)
include hs hmem hv

omit hkeep hcol in
theorem LivesSound.deleted_again (htype : ev.eventType = .deleted) :
    LivesSound view { s with view := v } := by
  obtain ⟨hev, hpos, hcover⟩ := hs.covered ev hmem
  obtain ⟨c, hc, b, hb, hcb⟩ := hs.deletions ev hmem htype
  obtain rfl := projectOwnView_deleted htype hpos hc hv
  obtain ⟨htomb, -, hcover'⟩ := stampTombstone_spec hs.tombstone
    (fun b hb => ⟨b, hb, Nat.le_refl _⟩) ⟨b, hb, hcb⟩
  refine ⟨htomb, fun e he => ?_, hs.deletions, hs.processed, hs.later, fun hcur => ?_,
    fun life hl => ?_⟩
  · obtain ⟨hwf, hp, hc⟩ := hs.covered e he
    exact ⟨hwf, hp, hcover' _ hc⟩
  · rw [hs.between hcur]
    rfl
  · obtain ⟨d, hd, hprojectable, hstored, hget⟩ := hs.doc life hl
    have hlater := (hs.later life hl).2 b hb
    refine ⟨d, ?_, hprojectable, hstored, hget⟩
    rw [hd]
    exact deleteGuarded_of_later _ hget c.pos (by omega)

/-- A write of an ended life between two lives removes itself, where it carries no birth but the one
of the tombstone. -/
theorem LivesSound.written_between (htype : ev.eventType ≠ .deleted) (hcur : s.current = none)
    (hborn : ∀ val ∈ ev.payload.scalars.get incarnationField, ∃ t ∈ s.view.tombstone, val = .time
      t.createdAt) : v = s.view := by
  obtain ⟨hev, hpos, t, ht, hle⟩ := hs.covered ev hmem
  have hnone := hs.between hcur
  obtain ⟨d', hproj, rfl⟩ := projectOwnView_upsert hkeep hev htype
    (fun d hd => by rw [hnone] at hd; cases hd) hv
  rw [hnone, getD_none] at hproj
  have hnew : storedRevision [("_id", .str ev.aggregateID)] docRevisionField = -1 := by
    simp [storedRevision, docRevisionField, get_cons]
  have hbornAt : BornAt t.createdAt d' := by
    refine bornAt_of_get ?_
    rw [hproj.createdAt hcol]
    cases hval : ev.payload.scalars.get incarnationField with
    | none => exact .inl rfl
    | some val =>
      obtain ⟨t', ht', rfl⟩ := hborn val hval
      obtain rfl : t = t' := mem_unique ht ht'
      right
      dsimp only
      rw [if_pos (by omega)]
  have hstored : storedRevision d' docRevisionField ≤ t.revision := by
    rw [hproj.storedRevision]
    omega
  rw [mem_def] at ht
  simp only [checkTombstone, ht]
  rw [if_neg (by omega), deleteGuarded_of_le (hproj.projectable projectable_new).revision
    hstored (.inr hbornAt), ← hnone, ← ht]

/-- A write of an ended life on a document that is past it leaves the document of the life under
way. -/
theorem LivesSound.written_during {life : Life} {d : Doc} (htype : ev.eventType ≠ .deleted)
    (hcur : s.current = some life) (hd : s.view.doc = some d)
    (hpast : (ev.payload.ids.revision : ℤ) < storedRevision d docRevisionField) :
    LivesSound view { s with view := v } := by
  obtain ⟨hev, -, -⟩ := hs.covered ev hmem
  obtain ⟨d0, hd0, hprojectable, hstored, hget⟩ := hs.doc life hcur
  obtain rfl : d = d0 := mem_unique hd hd0
  obtain ⟨d', hproj, rfl⟩ := projectOwnView_upsert hkeep hev htype
    (fun e he => by rw [hd] at he; cases he; exact hprojectable) hv
  rw [hd, getD_some] at hproj
  have hget' : d'.get incarnationField = some (.time life.born) := by
    rw [hproj.createdAt hcol, hget]
    cases ev.payload.scalars.get incarnationField with
    | none => rfl
    | some val => exact if_neg (by omega)
  rw [checkTombstone_of_later hget' hs.tombstone (hs.later life hcur).2]
  refine ⟨hs.tombstone, hs.covered, hs.deletions, hs.processed, hs.later, fun h => ?_,
    fun l hl => ?_⟩
  · rw [hcur] at h
    cases h
  · obtain rfl := mem_unique hcur hl
    refine ⟨d', rfl, hproj.projectable hprojectable, ?_, hget'⟩
    rw [hproj.storedRevision, hstored]
    omega

/-- An event of an ended life that meets the condition leaves the life under way alone. -/
theorem LivesSound.again (hsafe : Harmless view incarnationField s (.redeliver ev)) :
    LivesSound view { s with view := v } := by
  by_cases htype : ev.eventType = .deleted
  · exact hs.deleted_again hmem hv htype
  · have hsafe := hsafe.resolve_left (by rw [not_delete_of_keep hkeep htype]; nofun)
    rcases eq_none_or_eq_some s.current with hcur | ⟨life, hcur⟩
    · rw [hs.between hcur] at hsafe
      obtain rfl := hs.written_between hkeep hcol hmem hv htype hcur hsafe
      exact hs
    · obtain ⟨d, hd, -⟩ := hs.doc life hcur
      rw [hd] at hsafe
      exact hs.written_during hkeep hcol hmem hv htype hcur hd hsafe

omit hs hmem hv

/-- **Step.** -/
theorem LivesSound.step {a : LivesAction} (hs : LivesSound view s)
    (hsafe : Harmless view incarnationField s a ∧ WellFormed view.schema a.event.payload)
    (hstep : (livesMachine view incarnationField).step s a = some s') : LivesSound view s' := by
  cases a with
  | deliver ev =>
    obtain ⟨current, hnext, hstep⟩ := bind_eq_some_iff.1 hstep
    unfold nextLife at hnext
    cases hv : projectOwnView view s.view ev with
    | error m => simp [hv] at hstep
    | ok v =>
      cases hcur : s.current with
      | none =>
        simp only [hcur] at hnext
        obtain ⟨born, hborn, hnext⟩ := bind_eq_some_iff.1 hnext
        split_ifs at hnext with hif
        cases hnext
        simp only [hv, hcur, some.injEq] at hstep
        subst hstep
        exact hs.birth hkeep hcol hsafe.2 hcur hif.1 hif.2.1 (birthOf_some hborn) hif.2.2 hv
      | some life =>
        simp only [hcur] at hnext
        cases htype : ev.eventType <;> simp only [htype] at hnext
        case inserted => cases hnext
        all_goals
          split_ifs at hnext with hif
          cases hnext
          simp only [hv, hcur, some.injEq] at hstep
          subst hstep
          first
          | exact hs.death hsafe.2 hcur htype hif.1 hif.2 hv
          | exact hs.write hkeep hcol hsafe.2 hcur (htype.trans_ne (by simp)) hif.1 hif.2 hv
  | redeliver ev =>
    simp only [livesMachine] at hstep
    split_ifs at hstep with hmem
    cases hv : projectOwnView view s.view ev with
    | error m => simp [hv] at hstep
    | ok v =>
      simp only [hv, some.injEq] at hstep
      subst hstep
      exact hs.again hkeep hcol hmem hv hsafe.1

end

end

/-- **The document follows the current life** in every run in which a redelivered write of an ended
life meets a document past it or a tombstone of its own life, where the incarnation test reads the
CreatedAt column and archived documents stay. -/
theorem right_life_of_run {view : EntityView} (hkeep : view.deleteOnArchive = false) {col : String}
    (hcol : view.schema.createdAt = some col) (hname : col = incarnationField)
    {as : List LivesAction} (hevs : ∀ a ∈ as, WellFormed view.schema a.event.payload)
    (hC : (livesMachine view col).Along (Harmless view col) {} as) {s : LivesState}
    (hrun : (livesMachine view col).run {} as = some s) : FollowsLife col s := by
  subst hname
  have hinit : LivesSound view {} := ⟨nofun, nofun, nofun, nofun, nofun, fun _ => rfl, nofun⟩
  have hsound := run_invariant (fun _ _ _ hs hsafe hstep =>
    LivesSound.step hkeep hcol hs hsafe hstep) hinit (hC.and_forall hevs) hrun
  cases hcur : s.current with
  | none =>
    simp only [FollowsLife, hcur]
    exact hsound.between hcur
  | some life =>
    obtain ⟨d, hd, -, -, hget⟩ := hsound.doc life hcur
    simp only [FollowsLife, hcur]
    exact ⟨d, hd, hget⟩

/-- Birth, change and death of an order. -/
def orderBorn (createdAt : String) (born : ℕ) : OutboxRow :=
  ⟨"orders", .inserted, "o", orderInserted createdAt born []⟩

@[inherit_doc orderBorn]
def orderChanged (revision : ℕ) : OutboxRow :=
  ⟨"orders", .updated, "o", { scalars := [("total", .int 3)], ids := { id := "o", revision } }⟩

@[inherit_doc orderBorn]
def orderDied (revision : ℕ) (born : Instant) : OutboxRow :=
  ⟨"orders", .deleted, "o",
    { scalars := [], ids := { id := "o", revision, createdAt := some born } }⟩

/-- Two lives of one length, with the insertion of the first redelivered between them and again on
the changed document of the second. -/
def redeliveredInsert : List LivesAction :=
  [.deliver (orderBorn "created_at" 5000), .deliver (orderDied 1 5000),
    .redeliver (orderBorn "created_at" 5000), .deliver (orderBorn "created_at" 9000),
    .deliver (orderChanged 2), .redeliver (orderBorn "created_at" 5000)]

/-- The document follows both lives. -/
theorem right_life_redeliveredInsert :
    ∃ s, (livesMachine ⟨datedOrders, false⟩ "created_at").run {} redeliveredInsert = some s ∧
      FollowsLife "created_at" s := by
  refine exists_run (fun _ => True) (by decide +kernel) fun s hs _ =>
    right_life_of_run rfl rfl rfl (fun a ha => ?_) (by decide +kernel) hs
  simp only [redeliveredInsert, mem_cons, not_mem_nil, or_false] at ha
  rcases ha with rfl | rfl | rfl | rfl | rfl | rfl <;>
    exact ⟨by decide, by decide, by decide, by decide⟩

/-- Orders dated in a column of another name. -/
def stampedOrders : TableSchema where
  toSchemaDecl := orderSchema "inserted_at" [⟨"total", none⟩]

/-- **Three ways to lose track.**  Where the CreatedAt column has another name, the insertion of the
second life is removed by the tombstone of the first.  After a second life shorter than the first,
its redelivered insertion stays.  And a redelivered write of a longer life carries the watermark of
the document past the deletion of the shorter one. -/
theorem wrong_life_of_rebirth :
    (∃ s ∈ (livesMachine ⟨stampedOrders, false⟩ "inserted_at").run {}
        [.deliver (orderBorn "inserted_at" 5000), .deliver (orderDied 1 5000),
          .deliver (orderBorn "inserted_at" 9000)], ¬ FollowsLife "inserted_at" s) ∧
    (∃ s ∈ (livesMachine ⟨datedOrders, false⟩ "created_at").run {}
        [.deliver (orderBorn "created_at" 5000), .deliver (orderChanged 2),
          .deliver (orderDied 2 5000), .deliver (orderBorn "created_at" 9000),
          .deliver (orderDied 1 9000), .redeliver (orderBorn "created_at" 9000)],
      ¬ FollowsLife "created_at" s) ∧
    ∃ s ∈ (livesMachine ⟨datedOrders, false⟩ "created_at").run {}
        [.deliver (orderBorn "created_at" 5000), .deliver (orderChanged 2),
          .deliver (orderDied 2 5000), .deliver (orderBorn "created_at" 9000),
          .redeliver (orderChanged 2), .deliver (orderDied 1 9000)],
      ¬ FollowsLife "created_at" s := by
  decide +kernel

end Omnicore.Query
