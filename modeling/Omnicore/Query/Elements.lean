import Omnicore.Query.PayloadProject

/-!
# The ids of a segment

Which elements a block of operations leaves in a collection, told by their ids: an inserted or
updated child puts its element in, a deleted one takes it out, and everything else keeps the ids.

## Main results

* `exists_of_path_foldl_editOp` : where an element comes from.
* `foldl_editOp_idem`, `Replaces.foldl_editOp` : a block of own operations applied twice leaves what
  it leaves once, and hides one whose elements it replaces.
* `editable_childPayload` : the operations a payload is built from are of that kind.
-/

namespace Omnicore.Query

open Omnicore.Core Domain Write List Option

/-! ### Operations -/

/-- The operation puts an element in. -/
def PutsIn (op : ChildPayload) : Prop := op.op = .insert ∨ op.op = .update

/-- The keys of an element are told apart, and only a child with an archived state is archived. -/
structure Editable (c : ChildSchema) (op : ChildPayload) : Prop where
  keys_nodup : c.elementKeys.Nodup
  rev_not_key : elemRevisionField ∉ c.elementKeys
  archivable : op.op = .archive ∨ op.op = .unarchive → c.archivedAt.isSome

section

variable {c : ChildSchema} {op : ChildPayload} {revision : ℕ} {guarded : Bool} {xs : List Value}
  {id : String}

theorem path_mergeElement {m : Doc} {k : String} (hk : k ∉ m.keys) (v : Value) :
    (mergeElement m v).path k = v.path k := by
  cases v with
  | doc d => exact AssocMap.get_setAll_of_not_mem d hk
  | _ => rfl

theorem Editable.idColumn_ne_rev (h : Editable c op) : elemRevisionField ≠ c.idColumn := fun he =>
  h.rev_not_key (he ▸ by simp [ChildSchema.elementKeys])

theorem Editable.idColumn_not_mem (h : Editable c op) (harch : c.archivedAt.isSome) :
    c.idColumn ∉ AssocMap.keys (archiveMutation c op revision guarded) := by
  obtain ⟨col, hcol⟩ := isSome_iff_exists.1 harch
  have hne : c.idColumn ≠ col := by
    have := h.keys_nodup
    rw [ChildSchema.elementKeys, cons_append, cons_append, nodup_cons] at this
    rintro rfl
    exact this.1 (by simp [hcol])
  have hrev := h.idColumn_ne_rev
  rw [archiveMutation]
  split_ifs <;> simp [archivedAtOf, hcol, hne, Ne.symm hrev]

theorem Editable.path_childElement (h : Editable c op) (htarget : opTarget c op = some id) :
    (Value.doc (childElement op revision guarded)).path c.idColumn = some (.str id) := by
  have hget : AssocMap.get op.fields c.idColumn = some (.str id) := by
    rw [opTarget] at htarget
    split_ifs at htarget
    split at htarget
    · rename_i id' hid
      split_ifs at htarget
      cases htarget
      exact hid
    · cases htarget
  rw [Value.path_doc, childElement]
  split_ifs
  · rw [AssocMap.get_set_ne _ _ h.idColumn_ne_rev, hget]
  · exact hget

theorem Editable.exists_of_mem_editOp (h : Editable c op) {v : Value}
    (hv : v ∈ editOp c revision guarded xs op) :
    (∃ v0 ∈ xs, v.path c.idColumn = v0.path c.idColumn) ∨
    PutsIn op ∧ ∃ id, opTarget c op = some id ∧ v.path c.idColumn = some (.str id) := by
  rw [editOp] at hv
  split at hv
  · rename_i id htarget
    have hput : PutsIn op → v ∈ putElement c id op revision guarded xs →
        (∃ v0 ∈ xs, v.path c.idColumn = v0.path c.idColumn) ∨
        PutsIn op ∧ ∃ id, opTarget c op = some id ∧ v.path c.idColumn = some (.str id) := by
      intro hop hv
      rw [putElement] at hv
      split_ifs at hv
      · exact .inl ⟨v, hv, rfl⟩
      · rcases mem_concat.1 hv with hv | rfl
        · exact .inl ⟨v, (mem_filter.1 hv).1, rfl⟩
        · exact .inr ⟨hop, id, htarget, h.path_childElement htarget⟩
    have hmap : (op.op = .archive ∨ op.op = .unarchive) → v ∈ xs.map (fun v =>
        if hasID c.idColumn id v then mergeElement (archiveMutation c op revision guarded) v
        else v) → ∃ v0 ∈ xs, v.path c.idColumn = v0.path c.idColumn := by
      intro hop hv
      obtain ⟨v0, hv0, rfl⟩ := mem_map.1 hv
      refine ⟨v0, hv0, ?_⟩
      split_ifs
      · exact path_mergeElement (h.idColumn_not_mem (h.archivable hop)) v0
      · rfl
    cases hop : op.op <;> simp only [editSegment, hop] at hv
    · exact hput (.inl hop) hv
    · exact hput (.inr hop) hv
    · exact .inl (hmap (.inl hop) hv)
    · exact .inl (hmap (.inr hop) hv)
    · exact .inl ⟨v, (mem_filter.1 hv).1, rfl⟩
    · exact .inl ⟨v, hv, rfl⟩
  · exact .inl ⟨v, hv, rfl⟩

/-! ### Blocks of operations -/

theorem exists_of_path_foldl_editOp {ops : List ChildPayload} (h : ∀ op ∈ ops, Editable c op)
    {v : Value} (hv : v ∈ ops.foldl (editOp c revision guarded) xs) :
    (∃ v0 ∈ xs, v.path c.idColumn = v0.path c.idColumn) ∨
    ∃ op ∈ ops, PutsIn op ∧ ∃ id, opTarget c op = some id ∧ v.path c.idColumn = some (.str id) := by
  induction ops generalizing xs with
  | nil => exact .inl ⟨v, hv, rfl⟩
  | cons op ops ih =>
    obtain ⟨hop, hops⟩ := forall_mem_cons.1 h
    rcases ih hops hv with ⟨v1, hv1, hpath⟩ | ⟨op', hop', hrest⟩
    · rcases hop.exists_of_mem_editOp hv1 with ⟨v0, hv0, he⟩ | ⟨hput, id, htarget, he⟩
      · exact .inl ⟨v0, hv0, hpath.trans he⟩
      · exact .inr ⟨op, mem_cons_self, hput, id, htarget, hpath.trans he⟩
    · exact .inr ⟨op', mem_cons_of_mem _ hop', hrest⟩

end

/-! ### A block applied twice -/

section

variable {c : ChildSchema} {op : ChildPayload} {ops : List ChildPayload} {xs : List Value}

/-- The operation is about the element. -/
def hits (c : ChildSchema) (op : ChildPayload) (v : Value) : Bool :=
  (opTarget c op).any fun id => hasID c.idColumn id v

/-- The operation only stamps its element. -/
def Stamps (op : ChildPayload) : Prop := op.op = .archive ∨ op.op = .unarchive

instance : DecidablePred Stamps := fun op => inferInstanceAs (Decidable (op.op = _ ∨ op.op = _))

theorem PutsIn.not_stamps (h : PutsIn op) : ¬Stamps op := by
  rcases h with h | h <;> simp [Stamps, h]

/-- What an own operation makes of an element that is there. -/
def keptBy (c : ChildSchema) (v : Value) (op : ChildPayload) : Option Value :=
  if hits c op v then
    if Stamps op then some (mergeElement (archiveMutation c op 0 false) v) else none
  else some v

/-- An own operation keeps, stamps or takes out each element by itself, and what it puts in does
not depend on them. -/
theorem editOp_eq (c : ChildSchema) (op : ChildPayload) (xs : List Value) :
    editOp c 0 false xs op = xs.filterMap (keptBy c · op) ++ editOp c 0 false [] op := by
  cases htarget : opTarget c op with
  | none => simp [editOp, keptBy, hits, htarget]
  | some id =>
    have hout : xs.filter (fun v => !hasID c.idColumn id v) =
        xs.filterMap fun v => if hasID c.idColumn id v then none else some v := by
      rw [← filterMap_eq_filter]
      congr
      funext v
      cases hv : hasID c.idColumn id v <;> simp [hv]
    have hstamp : (xs.map fun v => if hasID c.idColumn id v then
          mergeElement (archiveMutation c op 0 false) v else v) =
        xs.filterMap fun v => if hasID c.idColumn id v then
          some (mergeElement (archiveMutation c op 0 false) v) else some v := by
      rw [← filterMap_eq_map]
      congr
      funext v
      cases hv : hasID c.idColumn id v <;> simp [hv]
    have hop : op.op ≠ .noop := by
      intro hop
      simp [opTarget, hop] at htarget
    cases hop' : op.op <;>
      simp_all [editOp, editSegment, putElement, keptBy, hits, Stamps]

/-- The elements after a block of own operations: what is kept of the old ones, and what the block
leaves of nothing. -/
theorem foldl_editOp_eq (c : ChildSchema) (ops : List ChildPayload) (xs : List Value) :
    ops.foldl (editOp c 0 false) xs =
      xs.filterMap (fun v => ops.foldlM (keptBy c) v) ++ ops.foldl (editOp c 0 false) [] := by
  induction ops generalizing xs with
  | nil => simp
  | cons op ops ih =>
    rw [foldl_cons, foldl_cons, ih, editOp_eq, filterMap_append,
      filterMap_filterMap, append_assoc, ← ih]
    rfl

variable {v v' w : Value}

theorem hits_congr (h : v'.path c.idColumn = v.path c.idColumn) : hits c op v' = hits c op v := by
  simp [hits, hasID, h]

theorem path_stamped (h : Editable c op) (hst : Stamps op) (v : Value) :
    (mergeElement (archiveMutation c op 0 false) v).path c.idColumn = v.path c.idColumn :=
  path_mergeElement (h.idColumn_not_mem (h.archivable hst)) v

theorem path_keptBy (h : Editable c op) (hw : keptBy c v op = some w) :
    w.path c.idColumn = v.path c.idColumn := by
  rw [keptBy] at hw
  split_ifs at hw with hhit hst
  · cases hw
    exact path_stamped h hst v
  · cases hw
    rfl

theorem path_foldlM_keptBy (h : ∀ op ∈ ops, Editable c op) (hw : ops.foldlM (keptBy c) v = some w) :
    w.path c.idColumn = v.path c.idColumn := by
  induction ops generalizing v with
  | nil => cases hw; rfl
  | cons op ops ih =>
    obtain ⟨hop, hops⟩ := forall_mem_cons.1 h
    obtain ⟨v1, hv1, hw⟩ := bind_eq_some_iff.1 hw
    exact (ih hops hw).trans (path_keptBy hop hv1)

theorem foldlM_keptBy_of_replaced (h : ∀ op ∈ ops, Editable c op) {id : String}
    (hid : v.path c.idColumn = some (.str id))
    (hput : ∃ op ∈ ops, ¬Stamps op ∧ opTarget c op = some id) : ops.foldlM (keptBy c) v = none := by
  induction ops generalizing v with
  | nil => simp at hput
  | cons op ops ih =>
    obtain ⟨hop, hops⟩ := forall_mem_cons.1 h
    rw [foldlM_cons]
    cases hw : keptBy c v op with
    | none => rfl
    | some w =>
      refine ih hops ((path_keptBy hop hw).trans hid) ?_
      obtain ⟨op', hmem, hput, htarget⟩ := hput
      rcases mem_cons.1 hmem with rfl | hmem
      · exfalso
        simp [keptBy, hits, htarget, hasID, hid, hput] at hw
      · exact ⟨op', hmem, hput, htarget⟩

/-- The last stamp a block leaves on an element, absent where none reaches it. -/
def stampedBy (c : ChildSchema) : List ChildPayload → Value → Option Doc
  | [], _ => none
  | op :: ops, v => (stampedBy c ops v).or
      (if hits c op v then some (archiveMutation c op 0 false) else none)

/-- An element with a stamp. -/
def restamp (stamp : Option Doc) (v : Value) : Value := stamp.elim v (mergeElement · v)

theorem stampedBy_congr (h : v'.path c.idColumn = v.path c.idColumn) :
    stampedBy c ops v' = stampedBy c ops v := by
  induction ops with
  | nil => rfl
  | cons op ops ih => rw [stampedBy, ih, hits_congr h, stampedBy]

theorem mergeElement_mergeElement (op' : ChildPayload) :
    mergeElement (archiveMutation c op' 0 false) (mergeElement (archiveMutation c op 0 false) v) =
      mergeElement (archiveMutation c op' 0 false) v := by
  cases v with
  | doc d =>
    simp only [mergeElement, archiveMutation, Bool.false_eq_true, if_false, AssocMap.setAll,
      foldl_cons, foldl_nil, AssocMap.set_set]
  | _ => rfl

theorem stampedBy_eq {stamp : Doc} (h : stampedBy c ops v = some stamp) :
    ∃ op, stamp = archiveMutation c op 0 false := by
  induction ops with
  | nil => cases h
  | cons op ops ih =>
    rw [stampedBy, or_eq_some_iff] at h
    rcases h with h | ⟨-, h⟩
    · exact ih h
    · split_ifs at h
      exact ⟨op, (some.inj h).symm⟩

/-- Whether an element is kept depends on its id alone, and one that is kept has the last stamp. -/
theorem foldlM_keptBy_eq (h : ∀ op ∈ ops, Editable c op) (hw : ops.foldlM (keptBy c) v = some w)
    (hpath : v'.path c.idColumn = v.path c.idColumn) :
    ops.foldlM (keptBy c) v' = some (restamp (stampedBy c ops v) v') := by
  induction ops generalizing v v' with
  | nil => rfl
  | cons op ops ih =>
    obtain ⟨hop, hops⟩ := forall_mem_cons.1 h
    obtain ⟨v1, hv1, hw⟩ := bind_eq_some_iff.1 hw
    rw [foldlM_cons, keptBy, hits_congr hpath, stampedBy]
    rw [keptBy] at hv1
    split_ifs at hv1 ⊢ with hhit hst
    · cases hv1
      have hpath' := path_stamped hop hst v
      refine (ih hops hw ((path_stamped hop hst v').trans (hpath.trans hpath'.symm))).trans ?_
      rw [stampedBy_congr hpath']
      cases hs : stampedBy c ops v with
      | none => rfl
      | some stamp =>
        obtain ⟨op', rfl⟩ := stampedBy_eq hs
        exact congrArg some (mergeElement_mergeElement op')
    · cases hv1
      rw [or_none]
      exact ih hops hw hpath

/-- **Applying a block of own operations once more** changes nothing. -/
theorem foldl_editOp_idem (h : ∀ op ∈ ops, Editable c op) :
    ops.foldl (editOp c 0 false) (ops.foldl (editOp c 0 false) xs) =
      ops.foldl (editOp c 0 false) xs := by
  have hkept : ∀ v w, ops.foldlM (keptBy c) v = some w → ops.foldlM (keptBy c) w = some w := by
    intro v w hw
    rw [foldlM_keptBy_eq h hw (path_foldlM_keptBy h hw)]
    obtain rfl := some.inj (hw.symm.trans (foldlM_keptBy_eq h hw rfl))
    cases hs : stampedBy c ops v with
    | none => rfl
    | some stamp =>
      obtain ⟨op, rfl⟩ := stampedBy_eq hs
      exact congrArg some (mergeElement_mergeElement op)
  have hput : (ops.foldl (editOp c 0 false) []).filterMap (fun v => ops.foldlM (keptBy c) v) =
      [] := by
    rw [filterMap_eq_nil_iff]
    intro v hv
    rcases exists_of_path_foldl_editOp h hv with ⟨_, hnil, -⟩ | ⟨op, hop, hput, id, htarget, hpath⟩
    · cases hnil
    · exact foldlM_keptBy_of_replaced h hpath ⟨op, hop, hput.not_stamps, htarget⟩
  rw [foldl_editOp_eq c ops (ops.foldl _ xs), foldl_editOp_eq c ops xs, filterMap_append,
    filterMap_filterMap, hput, append_nil]
  congr 2
  funext v
  cases hv : ops.foldlM (keptBy c) v with
  | none => rfl
  | some w => exact hkept v w hv

/-- Every element a block edits is written or deleted by another one. -/
def Replaces (c : ChildSchema) (ops before : List ChildPayload) : Prop :=
  ∀ op ∈ before, ∀ id ∈ opTarget c op, ∃ op' ∈ ops, ¬Stamps op' ∧ opTarget c op' = some id

instance (c : ChildSchema) (ops before : List ChildPayload) : Decidable (Replaces c ops before) :=
  inferInstanceAs (Decidable (∀ op ∈ before, ∀ id ∈ opTarget c op, _))

theorem foldl_editOp_replaced (h : ∀ op' ∈ ops, Editable c op') (hop : Editable c op)
    (hcov : ∀ id ∈ opTarget c op, ∃ op' ∈ ops, ¬Stamps op' ∧ opTarget c op' = some id) :
    ops.foldl (editOp c 0 false) (editOp c 0 false xs op) = ops.foldl (editOp c 0 false) xs := by
  have hput : (editOp c 0 false [] op).filterMap (fun v => ops.foldlM (keptBy c) v) = [] := by
    rw [filterMap_eq_nil_iff]
    intro v hv
    rcases hop.exists_of_mem_editOp hv with ⟨_, hnil, -⟩ | ⟨-, id, htarget, hpath⟩
    · cases hnil
    · exact foldlM_keptBy_of_replaced h hpath (hcov id htarget)
  rw [foldl_editOp_eq c ops (editOp ..), foldl_editOp_eq c ops xs, editOp_eq c op xs,
    filterMap_append, filterMap_filterMap, hput, append_nil]
  congr 2
  funext v
  by_cases hhit : hits c op v
  · -- an element of its own is replaced, whether it was stamped before or not
    cases htarget : opTarget c op with
    | none => simp [hits, htarget] at hhit
    | some id =>
      have hpath : v.path c.idColumn = some (.str id) := by simpa [hits, htarget, hasID] using hhit
      have hnone := foldlM_keptBy_of_replaced h hpath (hcov id htarget)
      cases hw : keptBy c v op with
      | none => exact hnone.symm
      | some w =>
        have hgone := foldlM_keptBy_of_replaced h ((path_keptBy hop hw).trans hpath)
          (hcov id htarget)
        exact hgone.trans hnone.symm
  · simp [keptBy, hhit]

/-- **A block of own operations** is not seen under one that replaces its elements. -/
theorem Replaces.foldl_editOp {before : List ChildPayload} (hrep : Replaces c ops before)
    (h : ∀ op ∈ ops, Editable c op) (hbefore : ∀ op ∈ before, Editable c op) (xs : List Value) :
    ops.foldl (editOp c 0 false) (before.foldl (editOp c 0 false) xs) =
      ops.foldl (editOp c 0 false) xs := by
  induction before generalizing xs with
  | nil => rfl
  | cons op before ih =>
    obtain ⟨hop, hbefore⟩ := forall_mem_cons.1 hbefore
    obtain ⟨hcov, hrep⟩ := forall_mem_cons.1 hrep
    rw [foldl_cons, ih hrep hbefore, foldl_editOp_replaced h hop hcov]

end

/-! ### Tracked children -/

theorem editable_childPayload {α : Type} [PersistentItem α] {schema : TableSchema}
    {c : ChildSchema} (hc : c ∈ schema.allChildren) {eventType : EventType}
    {cascade : Option Instant} {it : AggregateItemEntry α} :
    Editable c (childPayload c eventType cascade it) := by
  obtain ⟨hnodup, hrev⟩ := schema.elements_nodup c hc
  refine ⟨hnodup, hrev, fun hop => ?_⟩
  by_contra harch
  rw [Bool.not_eq_true] at harch
  simp only [childPayload, childOpName, harch, Bool.false_and, Bool.not_false, if_true,
    Bool.false_eq_true, if_false] at hop
  split_ifs at hop
  · simp at hop
  · cases h : it.operation <;> simp [h] at hop

end Omnicore.Query
