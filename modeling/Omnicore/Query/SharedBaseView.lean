import Omnicore.Query.ConsultGuard
import Omnicore.Write.IdentityEvents

/-!
# Convergence of base-rooted documents

The document of a shared identity is recomposed by the events of its roles and deleted by the purge
event of its base.  Roles and base are different topics, so their events are processed in any
relative order, and a recomposition reads the rows some time before it writes.  While the base row
lives its revision orders the compositions; a purge ends that order, and the deletion it asks for
carries no revision.

## Main definitions

* `identityMachine` : the writes of an identity and the steps of the workers, in any order.
* `CatchesUp` : an identity is born again only after the traces of its earlier lives are processed.

## Main results

* `Tracks.step` : what the writes and the workers keep.
* `converged_of_catchesUp` : once every event is processed, the document follows the row.
* `document_lost_after_rebirth` : a purge processed late deletes the document of the next life.
-/

namespace Omnicore.Query

open Omnicore.Core Write List AssocMap

/-- The columns of a base row in a document. -/
def baseColumns (base : BaseSchema) : List String :=
  base.idColumn :: columns base.fields ++ base.archivedAt.toList ++ base.createdAt.toList ++
    base.updatedAt.toList

/-- A view rooted at a shared base: the columns of the base, the segments of its children and those
of its roles are keys of their own, and no role shares its topic with the base. -/
structure SharedBaseView where
  base : BaseSchema
  roles : List RoleDef
  deleteOnArchive : Bool := false
  keys_nodup : (baseColumns base ++ (base.children.map (·.segment) ++ roles.map (·.segment))).Nodup
  keys_not_reserved : ∀ k ∈ baseColumns base ++
    (base.children.map (·.segment) ++ roles.map (·.segment)), k ∉ reservedKeys
  topics : ∀ r ∈ roles, r.schema.table ≠ base.table

open SharedBaseView

namespace SharedBaseView

variable (view : SharedBaseView)

def toView : ViewDefinition := ⟨.sharedBase view.base view.roles, view.deleteOnArchive⟩

/-- Archived identities keep their document. -/
def KeepsArchived : Prop := view.deleteOnArchive = false ∨ view.base.archivedAt = none

/-- The event is routed to the view's recomposition of an identity. -/
def routes (baseID : String) (ev : OutboxRow) : Bool :=
  view.roles.any (·.schema.table = ev.aggregateType) && ev.payload.ids.baseID = baseID

/-- The event is the purge of an identity, on the topic of the base. -/
def purges (baseID : String) (ev : OutboxRow) : Bool :=
  ev.aggregateType = view.base.table && ev.eventType = .deleted && ev.aggregateID = baseID

end SharedBaseView

/-! ### Workers -/

/-- A recomposition between its reads and its write: the event it processes, and what it has
composed. -/
structure Recompose where
  event : ℕ
  doc : Option Doc
  deriving DecidableEq

/-- The store and the document of one identity.  Events are named by their place in the outbox;
`taken` lists those a worker has taken, in the order of taking. -/
structure IdentityState where
  db : Database := {}
  doc : Option Doc := none
  taken : List ℕ := []
  inFlight : List Recompose := []

open IdentityState

/-- What can happen next. -/
inductive IdentityAction (α : Type) where
  /-- A role write. -/
  | write (w : RoleWrite α)
  /-- A worker takes a role event and composes the document. -/
  | compose (event : ℕ)
  /-- The worker writes what it composed, or deletes the document of a vanished identity; a write
  that fails is tried again. -/
  | apply (event : ℕ)
  /-- A worker takes a purge event and deletes the document. -/
  | deleteBase (event : ℕ)

section

variable {α : Type} [PersistentItem α] (env : Env) (view : SharedBaseView) (baseID : String)

variable (s : IdentityState)

/-- A worker takes an event, if it is of the right kind and not taken yet. -/
def IdentityState.take (p : OutboxRow → Bool) (i : ℕ) : Option IdentityState :=
  match s.db.outbox[i]? with
  | some ev => if p ev ∧ i ∉ s.taken then some { s with taken := s.taken ++ [i] } else none
  | none => none

/-- Writes, and the steps of the workers, in any order. -/
def identityMachine : Machine IdentityState (IdentityAction α) where
  step s
    | .write w => some { s with db := (w.commit env s.db).toOption.getD s.db }
    | .compose i => (s.take (view.routes baseID) i).map fun s =>
        { s with inFlight := s.inFlight ++ [⟨i, compose view.toView s.db baseID⟩] }
    | .apply i =>
      match s.inFlight.find? (·.event = i) with
      | none => none
      | some r =>
        let rest := s.inFlight.erase r
        match r.doc with
        | none => some { s with doc := none, inFlight := rest }
        | some d =>
          match applyConsultUpsert view.toView s.doc baseID d with
          | .ok doc => some { s with doc, inFlight := rest }
          | .error _ => some s
    | .deleteBase i => (s.take (view.purges baseID) i).map fun s => { s with doc := none }

/-- An event of a kind is not taken yet. -/
def IdentityState.pending (p : OutboxRow → Bool) : Bool :=
  (range s.db.outbox.length).any fun i => s.db.outbox[i]?.any p && i ∉ s.taken

/-- Every event of the identity has been processed. -/
def IdentityState.Settled : Prop :=
  s.inFlight = [] ∧ s.pending (view.routes baseID) = false ∧ s.pending (view.purges baseID) = false

/-- The document exists exactly if the base row does, and shows its columns. -/
def IdentityState.Converged : Prop :=
  (s.doc.isSome ↔ (s.db.base baseID).isSome) ∧
  ∀ d ∈ s.doc, ∀ b ∈ s.db.base baseID, ∀ k ∈ baseColumns view.base,
    d.get k = (baseRowDoc view.base b).get k

/-- The identity is created again only after the purges before it are processed and no composition
is under way, and a composition is written over a purged identity only while its purge is still to
be processed. -/
def CatchesUp : IdentityAction α → Prop
  | .write w => w.verb = .insert → s.db.base baseID = none →
      s.inFlight = [] ∧ s.pending (view.purges baseID) = false
  | .apply i => ∀ r ∈ s.inFlight, r.event = i → r.doc.isSome →
      (s.db.base baseID).isSome ∨ s.pending (view.purges baseID) = true
  | _ => True

/-- A write of a role the view declares, on the identity. -/
structure OfView (w : RoleWrite α) : Prop extends w.OnIdentity env view.base baseID where
  naturalKey : (sharedBaseValues view.base w.src).2 ≠ ""
  declared : ∃ r ∈ view.roles, r.schema.table = w.schema.table

/-- The store holds nothing of the identity yet. -/
structure Unseen (db : Database) : Prop where
  base : db.base baseID = none
  events : ∀ ev ∈ db.outbox, view.routes baseID ev = false ∧ view.purges baseID ev = false

end

/-! ### Documents of a base row -/

section

variable {view : SharedBaseView} {base : BaseSchema} {b : BaseRow} {d : Doc}

theorem keys_baseRowDoc : keys (baseRowDoc base b) = baseColumns base := by
  simp [AssocMap.keys, baseRowDoc, baseColumns, readFields, Function.comp_def]

theorem keys_filter_baseRowDoc (skip : List String) :
    keys ((baseRowDoc base b).filter (·.1 ∉ skip)) = (baseColumns base).filter (· ∉ skip) := by
  rw [← keys_baseRowDoc, AssocMap.keys, AssocMap.keys, filter_map]
  rfl

/-- The document shows the columns of the row. -/
def Mirrors (base : BaseSchema) (d : Doc) (b : BaseRow) : Prop :=
  ∀ k ∈ baseColumns base, d.get k = (baseRowDoc base b).get k

/-- A document of revision `n` that is behind the row, or mirrors it. -/
structure Behind (base : BaseSchema) (b : BaseRow) (d : Doc) (n : ℕ) : Prop where
  revision : d.get docRevisionField = some (.int n)
  pos : 0 < n
  le : n ≤ b.revision
  mirrors : n = b.revision → Mirrors base d b

variable {n m : ℕ}

theorem Behind.advance {b' : BaseRow} (h : Behind base b d n) (hrev : b.revision < b'.revision) :
    Behind base b' d n :=
  ⟨h.revision, h.pos, h.le.trans hrev.le, fun he => by have := h.le; omega⟩

theorem Behind.unique {b' : BaseRow} {n' : ℕ} (h : Behind base b d n) (h' : Behind base b' d n') :
    n = n' := by
  have := Option.some.inj (h.revision.symm.trans h'.revision)
  exact Int.ofNat.inj (Value.int.inj this)

/-- A composed document has every column. -/
structure Composed (base : BaseSchema) (b : BaseRow) (d : Doc) (n : ℕ) : Prop
    extends Behind base b d n where
  complete : ∀ k ∈ baseColumns base, (d.get k).isSome

variable {doc' : Option Doc} {k : String}

theorem SharedBaseView.column_not_reserved (hk : k ∈ baseColumns view.base) : k ∉ reservedKeys :=
  view.keys_not_reserved k (mem_append_left _ hk)

theorem SharedBaseView.column_not_segment (hk : k ∈ baseColumns view.base) :
    k ∉ view.base.children.map (·.segment) ∧ k ∉ view.roles.map (·.segment) := by
  have hdisj := (nodup_append.1 view.keys_nodup).2.2
  exact ⟨fun h => hdisj k hk k (mem_append_left _ h) rfl,
    fun h => hdisj k hk k (mem_append_right _ h) rfl⟩

theorem SharedBaseView.reserved_not_segment (hk : k ∈ reservedKeys) :
    k ∉ view.base.children.map (·.segment) ∧ k ∉ view.roles.map (·.segment) :=
  ⟨fun h => view.keys_not_reserved k
      (mem_append_right _ (mem_append_left _ h)) hk,
    fun h => view.keys_not_reserved k
      (mem_append_right _ (mem_append_right _ h)) hk⟩

variable {db : Database} {baseID : String}

theorem compose_sharedBase (hkeep : view.KeepsArchived) (hb : db.base baseID = some b)
    (hpos : 0 < b.revision) :
    ∃ d, compose view.toView db baseID = some d ∧ Composed view.base b d b.revision := by
  have hvisible : (!view.deleteOnArchive || view.base.archivedAt.isNone ||
      b.archivedAt.isNone) = true := by
    rcases hkeep with h | h <;> simp [h]
  -- segments are assigned beside the columns
  have hget : ∀ k, k ∉ view.base.children.map (·.segment) → k ∉ view.roles.map (·.segment) →
      ((compose view.toView db baseID).getD []).get k =
        (baseRowDoc view.base b ++ [(docRevisionField, Value.int b.revision)]).get k := by
    intro k hchild hrole
    simp only [compose, toView, hb, Option.filter_some, hvisible, if_true,
      Option.map_some, Option.getD_some, mergeChildren]
    rw [get_foldl_set view.roles (·.segment) _ _ hrole,
      get_foldl_set view.base.children (·.segment) _ _ hchild]
  have hcol : ∀ k ∈ baseColumns view.base,
      ((compose view.toView db baseID).getD []).get k = (baseRowDoc view.base b).get k ∧
        ((baseRowDoc view.base b).get k).isSome := by
    intro k hk
    have hsome : ((baseRowDoc view.base b).get k).isSome := by
      rw [Option.isSome_iff_ne_none, Ne, get_eq_none_iff, keys_baseRowDoc]
      exact not_not_intro hk
    refine ⟨?_, hsome⟩
    obtain ⟨v, hv⟩ := Option.isSome_iff_exists.1 hsome
    rw [hget k (view.column_not_segment hk).1 (view.column_not_segment hk).2, get_append, hv]
    rfl
  have hrev : ((compose view.toView db baseID).getD []).get docRevisionField =
      some (.int b.revision) := by
    have hres : docRevisionField ∈ reservedKeys := by decide
    have hnone : (baseRowDoc view.base b).get docRevisionField = none := by
      rw [get_eq_none_iff, keys_baseRowDoc]
      exact fun h => view.column_not_reserved h hres
    rw [hget _ (view.reserved_not_segment hres).1 (view.reserved_not_segment hres).2,
      get_append, hnone]
    rfl
  have hsome : ∃ d, compose view.toView db baseID = some d := by
    simp only [compose, toView, hb, Option.filter_some, hvisible, if_true, Option.map_some]
    exact ⟨_, rfl⟩
  obtain ⟨d, hd⟩ := hsome
  simp only [hd, Option.getD_some] at hcol hrev
  exact ⟨d, hd, ⟨hrev, hpos, le_rfl, fun _ k hk => (hcol k hk).1⟩,
    fun k hk => (hcol k hk).1 ▸ (hcol k hk).2⟩

/-! ### Writing a composition -/

theorem consultGuardedStages_sharedBase :
    consultGuardedStages view.toView d =
      if dataFields d = [] then []
      else [scopeStage docRevisionField (dataFields d) (watermarkOf (d.get docRevisionField))
        (ownShape view.toView.root)] := by
  have hown : ∀ l : Doc, l.filter (fun p => p.1 ∉ baseScope view.toView.root) = l := by
    simp [baseScope, toView]
  have hbase : ∀ l : Doc, l.filter (fun p => p.1 ∈ baseScope view.toView.root) = [] := by
    simp [baseScope, toView]
  simp only [consultGuardedStages, hown, hbase, if_true, append_nil]

theorem SharedBaseView.isScalar_column (hk : k ∈ baseColumns view.base) :
    (ownShape view.toView.root).IsScalar k := by
  obtain ⟨hchild, hrole⟩ := view.column_not_segment hk
  refine ⟨?_, hrole⟩
  rw [get_eq_none_iff]
  simpa [ownShape, toView, arraySegs, AssocMap.keys, Function.comp_def] using hchild

theorem SharedBaseView.isData_column (hk : k ∈ baseColumns view.base) : isData k = true := by
  have := view.column_not_reserved hk
  simp only [reservedKeys, mem_cons, not_or] at this
  simp [isData, docRevisionField, docBaseRevisionField, this]

theorem applyConsultUpsert_ok {stored : Option Doc} (hd : Composed view.base b d m)
    (h : applyConsultUpsert view.toView stored baseID d = .ok doc') :
    ∃ d', doc' = some d' ∧ (scopeStage docRevisionField (dataFields d) m
      (ownShape view.toView.root)).apply (stored.getD [("_id", .str baseID)]) = .ok d' := by
  -- the stage is there: the id column is data
  have hne : dataFields d ≠ [] := by
    intro he
    have hidcol : view.base.idColumn ∈ baseColumns view.base := mem_cons_self
    have hget := get_dataFields d (view.isData_column hidcol)
    rw [he, get_nil] at hget
    have := hd.complete _ hidcol
    rw [← hget] at this
    cases this
  rw [applyConsultUpsert, consultGuardedStages_sharedBase, if_neg hne, hd.revision,
    if_neg (cons_ne_nil _ _)] at h
  obtain ⟨-, d', hdoc, hrun⟩ := (applyProjection_ok h).resolve_left nofun
  exact ⟨d', hdoc, runStages_singleton hrun⟩

theorem Composed.get_data (hd : Composed view.base b d m) (hk : k ∈ baseColumns view.base) :
    ∃ v, d.get k = some v ∧ (dataFields d).get k = some v := by
  obtain ⟨v, hv⟩ := Option.isSome_iff_exists.1 (hd.complete k hk)
  exact ⟨v, hv, (get_dataFields d (view.isData_column hk)).trans hv⟩

theorem applyConsultUpsert_absent (hd : Composed view.base b d m)
    (h : applyConsultUpsert view.toView none baseID d = .ok doc') :
    ∃ d', doc' = some d' ∧ Behind view.base b d' m := by
  obtain ⟨d', hdoc, h⟩ := applyConsultUpsert_ok hd h
  have hm : (0 : ℤ) < m := by exact_mod_cast hd.pos
  have hw : Watermarked [("_id", .str baseID)] docRevisionField := .inl rfl
  have hlt : storedRevision [("_id", .str baseID)] docRevisionField < m :=
    lt_trans (show (-1 : ℤ) < 0 by decide) hm
  have hrev := scopeStage_watermark hm hw h (get_dataFields_of_not_data d (by decide))
  refine ⟨d', hdoc, by rw [hrev, max_eq_right hlt.le], hd.pos, hd.le, fun he k hk => ?_⟩
  obtain ⟨v, hv, hv'⟩ := hd.get_data hk
  rw [scopeStage_newer hm hw h hlt hv', ← hv]
  exact hd.mirrors he k hk

theorem applyConsultUpsert_present {d0 : Doc} (hd0 : Behind view.base b d0 n)
    (hd : Composed view.base b d m)
    (h : applyConsultUpsert view.toView (some d0) baseID d = .ok doc') :
    ∃ d', doc' = some d' ∧ Behind view.base b d' (max n m) := by
  obtain ⟨d', hdoc, h⟩ := applyConsultUpsert_ok hd h
  have hm : (0 : ℤ) < m := by exact_mod_cast hd.pos
  have hw : Watermarked d0 docRevisionField := .inr ⟨n, hd0.revision⟩
  have hn : storedRevision d0 docRevisionField = n := by rw [storedRevision, hd0.revision]
  have hrev := scopeStage_watermark hm hw h (get_dataFields_of_not_data d (by decide))
  rw [hn, (by omega : max (n : ℤ) m = (max n m : ℕ))] at hrev
  refine ⟨d', hdoc, hrev, lt_max_of_lt_left hd0.pos, max_le hd0.le hd.le, fun he k hk => ?_⟩
  obtain ⟨v, hv, hv'⟩ := hd.get_data hk
  rcases lt_trichotomy n m with hlt | heq | hgt
  · -- newer
    rw [max_eq_right hlt.le] at he
    rw [scopeStage_newer hm hw h (by rw [hn]; exact_mod_cast hlt) hv', ← hv]
    exact hd.mirrors he k hk
  · -- equal: every column is there already
    rw [heq, max_self] at he
    rw [scopeStage_equal hm hw h (by rw [hn, heq]) (view.isScalar_column hk) hv', ← hv,
      hd.mirrors he k hk, hd0.mirrors (heq.trans he) k hk, Option.or_self]
  · -- older
    rw [max_eq_left hgt.le] at he
    rw [scopeStage_older hm hw h (by rw [hn]; exact_mod_cast hgt) hv']
    exact hd0.mirrors he k hk

end

/-! ### Pending events -/

section

variable {s s' : IdentityState} {p q : OutboxRow → Bool} {i : ℕ}

theorem IdentityState.pending_iff :
    s.pending p = true ↔ ∃ i ev, s.db.outbox[i]? = some ev ∧ p ev = true ∧ i ∉ s.taken := by
  simp only [pending, any_eq_true, mem_range, Bool.and_eq_true, Option.any_eq_true,
    decide_eq_true_eq]
  constructor
  · rintro ⟨i, -, ⟨ev, hev, hp⟩, hi⟩
    exact ⟨i, ev, hev, hp, hi⟩
  · rintro ⟨i, ev, hev, hp, hi⟩
    exact ⟨i, (List.getElem?_eq_some_iff.1 hev).1, ⟨ev, hev, hp⟩, hi⟩

theorem IdentityState.pending_append {db' : Database} {evs : List OutboxRow}
    (htaken : ∀ i ∈ s.taken, i < s.db.outbox.length) (hout : db'.outbox = s.db.outbox ++ evs) :
    { s with db := db' }.pending p = (s.pending p || evs.any p) := by
  rw [Bool.eq_iff_iff, Bool.or_eq_true, pending_iff, pending_iff, any_eq_true]
  simp only [hout]
  constructor
  · rintro ⟨i, ev, hev, hp, hi⟩
    rcases Nat.lt_or_ge i s.db.outbox.length with hlt | hge
    · rw [getElem?_append_left hlt] at hev
      exact .inl ⟨i, ev, hev, hp, hi⟩
    · rw [getElem?_append_right hge] at hev
      exact .inr ⟨ev, mem_of_getElem? hev, hp⟩
  · rintro (⟨i, ev, hev, hp, hi⟩ | ⟨ev, hmem, hp⟩)
    · rw [← List.getElem?_append_left (List.getElem?_eq_some_iff.1 hev).1] at hev
      exact ⟨i, ev, hev, hp, hi⟩
    · obtain ⟨j, hj⟩ := getElem?_of_mem hmem
      refine ⟨s.db.outbox.length + j, ev, ?_, hp, fun h => ?_⟩
      · rwa [getElem?_append_right (Nat.le_add_right _ _), Nat.add_sub_cancel_left]
      · exact absurd (htaken _ h) (by omega)

section

variable (h : s.take p i = some s')
include h

theorem IdentityState.take_some :
    s' = { s with taken := s.taken ++ [i] } ∧
      ∃ ev, s.db.outbox[i]? = some ev ∧ p ev = true ∧ i ∉ s.taken := by
  unfold take at h
  split at h
  · split_ifs at h with hp
    cases h
    exact ⟨rfl, _, ‹_›, hp⟩
  · cases h

theorem IdentityState.pending_of_take (hq : s'.pending q = true) : s.pending q = true := by
  obtain ⟨rfl, -⟩ := take_some h
  obtain ⟨j, ev, hev, hqev, hj⟩ := pending_iff.1 hq
  exact pending_iff.2 ⟨j, ev, hev, hqev, fun hmem => hj (mem_append_left _ hmem)⟩

theorem IdentityState.pending_take (hdisj : ∀ ev, p ev = true → q ev = false)
    (hq : s.pending q = true) : s'.pending q = true := by
  obtain ⟨rfl, ev', hev', hp, -⟩ := take_some h
  obtain ⟨j, ev, hev, hqev, hj⟩ := pending_iff.1 hq
  refine pending_iff.2 ⟨j, ev, hev, hqev, fun hmem => ?_⟩
  rcases mem_concat.1 hmem with hmem | rfl
  · exact hj hmem
  · obtain rfl : ev' = ev := Option.some.inj (hev'.symm.trans hev)
    rw [hdisj _ hp] at hqev
    cases hqev

theorem IdentityState.taken_lt_of_take (htaken : ∀ i ∈ s.taken, i < s.db.outbox.length) :
    ∀ i ∈ s'.taken, i < s'.db.outbox.length := by
  obtain ⟨rfl, ev, hev, -⟩ := take_some h
  intro j hj
  rcases mem_concat.1 hj with hj | rfl
  · exact htaken j hj
  · exact (List.getElem?_eq_some_iff.1 hev).1

end

end

/-! ### What every run keeps -/

/-- The document of a present row: every document and composition is one of its past or present
revisions, and its present revision is shown, under way, or still to be composed. -/
structure Alive (view : SharedBaseView) (baseID : String) (b : BaseRow) (s : IdentityState) :
    Prop where
  pos : 0 < b.revision
  noPurge : s.pending (view.purges baseID) = false
  doc : ∀ d ∈ s.doc, ∃ n, Behind view.base b d n
  inFlight : ∀ r ∈ s.inFlight, ∃ d m, r.doc = some d ∧ Composed view.base b d m
  current : (∃ d ∈ s.doc, Behind view.base b d b.revision) ∨
    (∃ r ∈ s.inFlight, ∃ d ∈ r.doc, Composed view.base b d b.revision) ∨
    s.pending (view.routes baseID) = true

/-- The document follows the row, and one of a purged row is still to be deleted. -/
structure Tracks (view : SharedBaseView) (baseID : String) (s : IdentityState) : Prop where
  taken_lt : ∀ i ∈ s.taken, i < s.db.outbox.length
  gone : s.db.base baseID = none → s.doc = none ∨ s.pending (view.purges baseID) = true
  alive : ∀ b, s.db.base baseID = some b → Alive view baseID b s

section

variable {α : Type} [PersistentItem α] {env : Env} {view : SharedBaseView} {baseID : String}
  {s s' : IdentityState} {i : ℕ}

theorem Tracks.of_unseen {db : Database} (h : Unseen view baseID db) : Tracks view baseID { db } :=
  ⟨by simp, fun _ => .inl rfl, fun b hb => by rw [h.base] at hb; cases hb⟩

theorem Tracks.converged (h : Tracks view baseID s) (hs : s.Settled view baseID) :
    s.Converged view baseID := by
  obtain ⟨hflight, hroutes, hpurges⟩ := hs
  cases hb : s.db.base baseID with
  | none =>
    have hdoc : s.doc = none := (h.gone hb).resolve_right (by simp [hpurges])
    simp [IdentityState.Converged, hb, hdoc]
  | some b =>
    have hcur := (h.alive b hb).current
    simp only [hflight, hroutes, not_mem_nil, false_and, exists_false, Bool.false_eq_true,
      or_false] at hcur
    obtain ⟨d, hd, hbehind⟩ := hcur
    simp only [IdentityState.Converged, hb, Option.mem_def.1 hd]
    refine ⟨by simp, ?_⟩
    rintro _ ⟨⟩ _ ⟨⟩
    exact hbehind.mirrors rfl

variable {ev : OutboxRow}

theorem SharedBaseView.purges_eq_false_of_declared {r : RoleDef} (hr : r ∈ view.roles)
    (h : r.schema.table = ev.aggregateType) : view.purges baseID ev = false := by
  have := view.topics r hr
  rw [h] at this
  simp [purges, this]

theorem SharedBaseView.purges_eq_false_of_routes (h : view.routes baseID ev = true) :
    view.purges baseID ev = false := by
  simp only [routes, Bool.and_eq_true, any_eq_true, decide_eq_true_eq] at h
  obtain ⟨⟨r, hr, he⟩, -⟩ := h
  exact purges_eq_false_of_declared hr he

omit [PersistentItem α] in
theorem OfView.routes {w : RoleWrite α} (hw : OfView env view baseID w)
    (hev : IsRoleEvent w.schema baseID ev) : view.routes baseID ev = true := by
  obtain ⟨r, hr, he⟩ := hw.declared
  simp only [SharedBaseView.routes, Bool.and_eq_true, any_eq_true, decide_eq_true_eq]
  exact ⟨⟨r, hr, he.trans hev.aggregateType.symm⟩, hev.baseID_eq⟩

theorem SharedBaseView.purges_of_isPurgeEvent (h : IsPurgeEvent view.base baseID ev) :
    view.purges baseID ev = true := by
  simp [purges, h.aggregateType, h.eventType, h.aggregateID]

variable (h : Tracks view baseID s)
include h

omit [PersistentItem α] in
/-- **Step: a write.** -/
theorem Tracks.write {w : RoleWrite α} {db' : Database} (hw : OfView env view baseID w)
    (hstep : IdentityStep w.schema view.base baseID w.verb s.db db')
    (hcatch : CatchesUp view baseID s (.write w)) : Tracks view baseID { s with db := db' } := by
  have htaken : ∀ evs, db'.outbox = s.db.outbox ++ evs → ∀ i ∈ s.taken, i < db'.outbox.length := by
    intro evs hout i hi
    have := h.taken_lt i hi
    rw [hout, length_append]
    omega
  cases hstep with
  | created b ev hverb hold hnew hrev hout hev =>
    -- nothing of an earlier life is left
    obtain ⟨hflight, hpurge⟩ := hcatch hverb hold
    have hdoc : s.doc = none := (h.gone hold).resolve_right (by simp [hpurge])
    have hroute := hw.routes hev
    refine ⟨htaken _ hout, fun hnone => absurd (hnone.symm.trans hnew) (by simp), fun b' hb' => ?_⟩
    obtain rfl : b = b' := Option.some.inj (hnew.symm.trans hb')
    refine ⟨hrev, ?_, by simp [hdoc], by simp [hflight], .inr (.inr ?_)⟩
    · rw [pending_append h.taken_lt hout, hpurge]
      simp [purges_eq_false_of_routes hroute]
    · rw [pending_append h.taken_lt hout]
      simp [hroute]
  | advanced b b' ev hold hnew hrev hout hev =>
    have halive := h.alive b hold
    have hroute := hw.routes hev
    refine ⟨htaken _ hout, fun hnone => absurd (hnone.symm.trans hnew) (by simp), fun b1 hb1 => ?_⟩
    obtain rfl : b' = b1 := Option.some.inj (hnew.symm.trans hb1)
    refine ⟨by omega, ?_, fun d hd => ?_, fun r hr => ?_, .inr (.inr ?_)⟩
    · rw [pending_append h.taken_lt hout, halive.noPurge]
      simp [purges_eq_false_of_routes hroute]
    · obtain ⟨n, hn⟩ := halive.doc d hd
      exact ⟨n, hn.advance hrev⟩
    · obtain ⟨d, m, hd, hm⟩ := halive.inFlight r hr
      exact ⟨d, m, hd, hm.toBehind.advance hrev, hm.complete⟩
    · rw [pending_append h.taken_lt hout]
      simp [hroute]
  | absent evs hold hnew hout =>
    refine ⟨htaken _ hout, fun _ => ?_, fun b hb => absurd (hnew.symm.trans hb) (by simp)⟩
    refine (h.gone hold).imp_right fun hpurge => ?_
    rw [pending_append h.taken_lt hout, hpurge, Bool.true_or]
  | purged b ev ev' hold hnew hout hpurge hev =>
    refine ⟨htaken _ hout, fun _ => .inr ?_, fun b hb => absurd (hnew.symm.trans hb) (by simp)⟩
    rw [pending_append h.taken_lt hout]
    simp [purges_of_isPurgeEvent hpurge]

/-- **Step: a composition.** -/
theorem Tracks.compose (hkeep : view.KeepsArchived)
    (htake : s.take (view.routes baseID) i = some s') :
    Tracks view baseID { s' with inFlight := s'.inFlight ++
      [⟨i, Query.compose view.toView s'.db baseID⟩] } := by
  have htaken := taken_lt_of_take htake h.taken_lt
  have hpurge := pending_take (q := view.purges baseID) htake fun _ => purges_eq_false_of_routes
  have hnoPurge := pending_of_take (q := view.purges baseID) htake
  obtain ⟨rfl, -⟩ := take_some htake
  refine ⟨htaken, fun hb => (h.gone hb).imp_right hpurge, fun b hb => ?_⟩
  have halive := h.alive b hb
  obtain ⟨d, hd, hcomp⟩ := compose_sharedBase hkeep hb halive.pos
  have hmem : (⟨i, some d⟩ : Recompose) ∈ s.inFlight ++ [⟨i, some d⟩] := by simp
  simp only [hd]
  refine ⟨halive.pos, ?_, halive.doc, fun r hr => ?_, .inr (.inl ⟨_, hmem, d, rfl, hcomp⟩)⟩
  · have := halive.noPurge
    exact Bool.eq_false_iff.2 fun hp => by rw [hnoPurge hp] at this; cases this
  · rcases mem_concat.1 hr with hr | rfl
    · exact halive.inFlight r hr
    · exact ⟨d, _, rfl, hcomp⟩

/-- **Step: the deletion of a purged identity's document.** -/
theorem Tracks.deleteBase (htake : s.take (view.purges baseID) i = some s') :
    Tracks view baseID { s' with doc := none } := by
  have htaken := taken_lt_of_take htake h.taken_lt
  obtain ⟨rfl, hpending⟩ := take_some htake
  refine ⟨htaken, fun _ => .inl rfl, fun b hb => ?_⟩
  -- no purge of a present row is pending
  have := (h.alive b hb).noPurge
  rw [pending_iff.2 ⟨i, hpending⟩] at this
  cases this

/-- **Step: a written composition.** -/
theorem Tracks.apply {r : Recompose} {d : Doc} {doc' : Option Doc} (hr : r ∈ s.inFlight)
    (hd : r.doc = some d)
    (hcatch : (s.db.base baseID).isSome ∨ s.pending (view.purges baseID) = true)
    (happly : applyConsultUpsert view.toView s.doc baseID d = .ok doc') :
    Tracks view baseID { s with doc := doc', inFlight := s.inFlight.erase r } := by
  refine ⟨h.taken_lt, fun hb => .inr (hcatch.resolve_left (by simp [hb])), fun b hb => ?_⟩
  have halive := h.alive b hb
  obtain ⟨d1, m, hd1, hcomp⟩ := halive.inFlight r hr
  obtain rfl : d = d1 := Option.some.inj (hd.symm.trans hd1)
  -- the new document is at least as new as the old one and as the composition
  obtain ⟨d', n, rfl, hbehind, hm, hold⟩ : ∃ d' n, doc' = some d' ∧ Behind view.base b d' n ∧
      m ≤ n ∧ ∀ d0 ∈ s.doc, ∀ n0, Behind view.base b d0 n0 → n0 ≤ n := by
    cases hdoc : s.doc with
    | none =>
      rw [hdoc] at happly
      obtain ⟨d', hd', hbehind⟩ := applyConsultUpsert_absent hcomp happly
      exact ⟨d', m, hd', hbehind, le_rfl, by simp⟩
    | some d0 =>
      rw [hdoc] at happly
      obtain ⟨n0, hn0⟩ := halive.doc d0 hdoc
      obtain ⟨d', hd', hbehind⟩ := applyConsultUpsert_present hn0 hcomp happly
      refine ⟨d', max n0 m, hd', hbehind, le_max_right _ _, ?_⟩
      rintro _ ⟨⟩ n1 hn1
      rw [hn1.unique hn0]
      exact le_max_left _ _
  have hcurrent : ∀ n0, b.revision ≤ n0 → n0 ≤ n → Behind view.base b d' b.revision := by
    intro n0 h1 h2
    have hn : n = b.revision := le_antisymm hbehind.le (h1.trans h2)
    exact hn ▸ hbehind
  refine ⟨halive.pos, halive.noPurge, ?_,
    fun r' hr' => halive.inFlight r' (mem_of_mem_erase hr'), ?_⟩
  · rintro _ ⟨⟩
    exact ⟨n, hbehind⟩
  · rcases halive.current with ⟨d0, hd0, hbehind0⟩ | ⟨r', hr', d0, hd0, hcomp'⟩ | hpending
    · exact .inl ⟨d', rfl, hcurrent _ le_rfl (hold d0 hd0 _ hbehind0)⟩
    · by_cases he : r' = r
      · subst he
        obtain rfl : d = d0 := Option.some.inj (hd.symm.trans hd0)
        exact .inl ⟨d', rfl, hcurrent _ (hcomp'.unique hcomp.toBehind).le hm⟩
      · exact .inr (.inl ⟨r', (mem_erase_of_ne he).2 hr', d0, hd0, hcomp'⟩)
    · exact .inr (.inr hpending)

/-- **Step: the deletion of the document of an identity composed while it was absent.** -/
theorem Tracks.applyAbsent {r : Recompose} (hr : r ∈ s.inFlight) (hd : r.doc = none) :
    Tracks view baseID { s with doc := none, inFlight := s.inFlight.erase r } := by
  refine ⟨h.taken_lt, fun _ => .inl rfl, fun b hb => ?_⟩
  obtain ⟨d, -, hd', -⟩ := (h.alive b hb).inFlight r hr
  rw [hd] at hd'
  cases hd'

/-- **Step.** -/
theorem Tracks.step {a : IdentityAction α} (hkeep : view.KeepsArchived)
    (hof : ∀ w, a = .write w → OfView env view baseID w) (hcatch : CatchesUp view baseID s a)
    (hstep : (identityMachine env view baseID).step s a = some s') : Tracks view baseID s' := by
  cases a with
  | write w =>
    simp only [identityMachine, Option.some.injEq] at hstep
    subst hstep
    have hw := hof w rfl
    cases hc : w.commit env s.db with
    | error m => exact h
    | ok db' =>
      exact h.write hw (RoleWrite.commit_identityStep hw.toOnIdentity hw.naturalKey hc) hcatch
  | compose i =>
    obtain ⟨s1, htake, rfl⟩ := Option.map_eq_some_iff.1 hstep
    exact h.compose hkeep htake
  | apply i =>
    simp only [identityMachine] at hstep
    split at hstep
    · cases hstep
    · rename_i r hfind
      have hr := mem_of_find?_eq_some hfind
      have hev := find?_some hfind
      split at hstep
      · cases hstep
        exact h.applyAbsent hr ‹_›
      · rename_i d hd
        split at hstep <;> cases hstep
        · exact h.apply hr hd (hcatch r hr (by simpa using hev) (by simp [hd])) ‹_›
        · exact h
  | deleteBase i =>
    obtain ⟨s1, htake, rfl⟩ := Option.map_eq_some_iff.1 hstep
    exact h.deleteBase htake

omit h

/-- **Convergence.** Whatever the order in which the events are processed, the document of an
identity is there exactly if the base row is, and shows its columns, once every event has been
processed; provided the identity is born again only after the traces of its earlier lives are
processed. -/
theorem converged_of_catchesUp (env : Env) (view : SharedBaseView) (baseID : String)
    (hkeep : view.KeepsArchived) {db₀ : Database} (h₀ : Unseen view baseID db₀)
    {as : List (IdentityAction α)} (hof : ∀ w, .write w ∈ as → OfView env view baseID w)
    (hcatch : (identityMachine env view baseID).Along (CatchesUp view baseID) { db := db₀ } as)
    {s : IdentityState} (hrun : (identityMachine env view baseID).run { db := db₀ } as = some s)
    (hs : s.Settled view baseID) : s.Converged view baseID := by
  have halong := hcatch.and_forall (P := fun a => ∀ w, a = .write w → OfView env view baseID w)
    fun a ha w he => hof w (he ▸ ha)
  have htracks : Tracks view baseID s :=
    Machine.run_invariant (fun s a s' h hc hstep => h.step hkeep hc.2 hc.1 hstep)
      (.of_unseen h₀) halong hrun
  exact htracks.converged hs

end

/-! ### A person born again -/

instance {α : Type} (view : SharedBaseView) (baseID : String) (s : IdentityState) :
    ∀ a : IdentityAction α, Decidable (CatchesUp view baseID s a)
  | .write w => inferInstanceAs (Decidable (w.verb = .insert → s.db.base baseID = none → _))
  | .apply i => inferInstanceAs (Decidable (∀ r ∈ s.inFlight, r.event = i → _ → _))
  | .compose _ | .deleteBase _ => .isTrue trivial

instance (view : SharedBaseView) (baseID : String) (s : IdentityState) :
    Decidable (s.Settled view baseID) :=
  inferInstanceAs (Decidable (s.inFlight = [] ∧ _ ∧ _))

instance (view : SharedBaseView) (baseID : String) (s : IdentityState) :
    Decidable (s.Converged view baseID) :=
  inferInstanceAs (Decidable (_ ∧ _))

/-- Events of one topic are taken in the order of the outbox. -/
def IdentityState.InTopicOrder (s : IdentityState) : Prop :=
  s.taken.Pairwise fun i j => s.db.outbox[i]?.map (·.aggregateType) =
    s.db.outbox[j]?.map (·.aggregateType) → i < j

instance (s : IdentityState) : Decidable s.InTopicOrder :=
  inferInstanceAs (Decidable (List.Pairwise _ _))

/-- Persons with their roles. -/
def persons : SharedBaseView where
  base := person
  roles := [⟨student, "student"⟩, ⟨teacher, "teacher"⟩]
  keys_nodup := by decide
  keys_not_reserved := by decide
  topics := by decide

/-- A student leaves, the last role of a person, and comes back later. -/
def comesBack (before after : List (IdentityAction Address)) : List (IdentityAction Address) :=
  [.write ⟨student, .insert, roleOf7 "" 0 "Ann", .ms 1⟩, .compose 0, .apply 0,
    .write ⟨student, .delete false, roleOf7 "s0" 1 "Ann", .ms 2⟩] ++ before ++
  [.write ⟨student, .insert, roleOf7 "" 0 "Ann", .ms 3⟩] ++ after

theorem persons_ofView (verb : RoleVerb) (id : String) (revision : ℕ) (name : String)
    (now : Instant) :
    OfView personEnv persons "person-7" ⟨student, verb, roleOf7 id revision name, now⟩ where
  toOnIdentity := roleOf7_onIdentity student_registered verb id revision name now
  naturalKey := show ("7" : String) ≠ "" by decide
  declared := ⟨⟨student, "student"⟩, by simp [persons], rfl⟩

theorem converged_of_prompt_purge :
    ∃ s ∈ (identityMachine personEnv persons "person-7").run {}
        (comesBack [.deleteBase 1, .compose 2, .apply 2] [.compose 3, .apply 3]),
      s.doc.isSome ∧ s.Converged persons "person-7" := by
  obtain ⟨s, hrun, hdoc, hs⟩ : ∃ s ∈ (identityMachine personEnv persons "person-7").run {}
      (comesBack [.deleteBase 1, .compose 2, .apply 2] [.compose 3, .apply 3]),
      s.doc.isSome ∧ s.Settled persons "person-7" := by decide +kernel
  refine ⟨s, hrun, hdoc, converged_of_catchesUp personEnv persons "person-7" (.inl rfl)
    ⟨rfl, by simp⟩ ?_ (by decide +kernel) hrun hs⟩
  simp [comesBack, persons_ofView]

/-- The purge is processed after the person is back: the document is gone, the row is not. -/
theorem document_lost_after_rebirth :
    ∃ s ∈ (identityMachine personEnv persons "person-7").run {}
        (comesBack [] [.compose 2, .apply 2, .compose 3, .apply 3, .deleteBase 1]),
      s.InTopicOrder ∧ s.Settled persons "person-7" ∧ ¬s.Converged persons "person-7" := by
  decide +kernel

end Omnicore.Query
