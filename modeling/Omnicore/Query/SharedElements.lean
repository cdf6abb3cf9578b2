import Omnicore.Lib.GuardedLog
import Omnicore.Lib.Machine
import Omnicore.Query.Elements

/-!
# Shared elements

The native children of a shared base are elements of every role's document, and the roles' events
reach one document in no particular order.  Each element carries the base revision of its last
writer, but only an insert or update looks at it: an archive, an unarchive or a delete applies in
any case, and a deleted element leaves no watermark.

## Main definitions

* `elementMachine` : operations on one element, each with the base revision of its event.
* `InTurn` : an operation that is the newest so far and skips nothing it depends on, or one that
  finds nothing to change.

## Main results

* `filter_editSegment` : what an operation makes of the elements of its id.
* `shared_element_last_writer` : where every operation comes in turn, the element is the one the
  operations leave in order, and its watermark never goes back.
-/

namespace Omnicore.Query

open Omnicore.Core Write GuardedLog List AssocMap Machine

/-- An operation of an event of a base revision. -/
structure SharedOp where
  op : ChildPayload
  revision : ℕ
  deriving DecidableEq

/-- A document, and the operations applied to it. -/
structure ElementState where
  doc : Doc
  applied : List SharedOp := []

/-- The operations of one collection on a document, one event after another. -/
def elementMachine (schema : SchemaDecl) (c : ChildSchema) : Machine ElementState SharedOp where
  step s o :=
    match runStages s.doc (childStages schema [(c.typeName, [o.op])] o.revision true) with
    | .ok doc => some { doc, applied := s.applied ++ [o] }
    | .error _ => none

/-- The elements of an id. -/
def elementsOf (c : ChildSchema) (id : String) (d : Doc) : List Value :=
  (segment d c.segment).filter (hasID c.idColumn id)

/-- The watermark of an element, below every other while it is missing. -/
def elemRevision (v : Value) : ℤ :=
  match v.path elemRevisionField with
  | some (.int n) => n
  | _ => -1

/-- The watermark of an element is missing or a revision. -/
def ElemWatermarked (v : Value) : Prop :=
  v.path elemRevisionField = none ∨ ∃ n : ℤ, v.path elemRevisionField = some (.int n)

/-- An operation finds nothing to change: the element it would put in is there at its revision or a
later one, or there is no element to stamp or delete. -/
def Idle (c : ChildSchema) (id : String) (d : Doc) (o : SharedOp) : Prop :=
  (PutsIn o.op ∧ ∃ v ∈ elementsOf c id d, (o.revision : ℤ) ≤ elemRevision v) ∨
    (¬PutsIn o.op ∧ elementsOf c id d = [])

/-- An operation comes in turn: it is not older than those applied before and, where it stamps the
element, none of lower revision is left out; or it is older and idle. -/
def InTurn (c : ChildSchema) (id : String) (ops : List SharedOp) (s : ElementState)
    (o : SharedOp) : Prop :=
  ((∀ p ∈ s.applied, p.revision ≤ o.revision) ∧ (Stamps o.op → ∀ f ∈ ops,
    f.revision < o.revision → ∃ p ∈ s.applied, f.revision ≤ p.revision)) ∨
  ((∃ p ∈ s.applied, o.revision < p.revision) ∧ Idle c id s.doc o)

instance : DecidablePred PutsIn := fun op => inferInstanceAs (Decidable (op.op = _ ∨ op.op = _))

instance (c : ChildSchema) (id : String) (d : Doc) (o : SharedOp) : Decidable (Idle c id d o) :=
  inferInstanceAs (Decidable ((_ ∧ _) ∨ (_ ∧ _)))

instance (c : ChildSchema) (id : String) (ops : List SharedOp) (s : ElementState) (o : SharedOp) :
    Decidable (InTurn c id ops s o) :=
  inferInstanceAs (Decidable ((_ ∧ _) ∨ (_ ∧ _)))

/-! ### One operation on one element -/

/-- What an operation in its order makes of the elements of its id. -/
def editElements (c : ChildSchema) (o : SharedOp) (xs : List Value) : List Value :=
  if PutsIn o.op then [.doc (childElement o.op o.revision true)]
  else if Stamps o.op then xs.map (mergeElement (archiveMutation c o.op o.revision true))
  else []

section

variable {c : ChildSchema} {id : String} {op : ChildPayload} {revision : ℕ} {xs : List Value}

theorem not_isLT_iff {v : Value} (hv : ElemWatermarked v) (n : ℕ) :
    (!Value.isLT (v.path elemRevisionField) (some (.int n))) =
      decide ((n : ℤ) ≤ elemRevision v) := by
  rw [elemRevision]
  rcases hv with h | ⟨m, h⟩ <;> rw [h]
  · have hlt : ¬(n : ℤ) ≤ -1 := by omega
    simp [Value.isLT, decide_eq_false hlt]
  · rw [Value.isLT_int, ← decide_not]
    exact decide_eq_decide.2 Int.not_lt

/-- **The elements of an id after an operation on it**: an element that is not older stays. -/
theorem filter_editSegment (h : Editable c op) (htarget : opTarget c op = some id)
    (hxs : ∀ v ∈ xs.filter (hasID c.idColumn id), ElemWatermarked v) :
    (editSegment c id op revision true xs).filter (hasID c.idColumn id) =
      if PutsIn op ∧ ∃ v ∈ xs.filter (hasID c.idColumn id), (revision : ℤ) ≤ elemRevision v then
        xs.filter (hasID c.idColumn id)
      else editElements c ⟨op, revision⟩ (xs.filter (hasID c.idColumn id)) := by
  set has := hasID c.idColumn id with hhas
  have hothers : (xs.filter fun v => !has v).filter (has) = [] := by
    simp [filter_filter]
  have hput : PutsIn op → (putElement c id op revision true xs).filter (has) =
      if ∃ v ∈ xs.filter (has), (revision : ℤ) ≤ elemRevision v then
        xs.filter (has)
      else [.doc (childElement op revision true)] := by
    intro _
    have hnewer : (true && xs.any fun v => has v &&
        !Value.isLT (v.path elemRevisionField) (some (.int revision))) = true ↔
        ∃ v ∈ xs.filter (has), (revision : ℤ) ≤ elemRevision v := by
      simp only [Bool.true_and, any_eq_true, Bool.and_eq_true]
      constructor
      · rintro ⟨v, hv, hid, hrev⟩
        have hmem : v ∈ xs.filter (has) := mem_filter.2 ⟨hv, hid⟩
        rw [not_isLT_iff (hxs v hmem), decide_eq_true_eq] at hrev
        exact ⟨v, hmem, hrev⟩
      · rintro ⟨v, hmem, hrev⟩
        refine ⟨v, (mem_filter.1 hmem).1, (mem_filter.1 hmem).2, ?_⟩
        rw [not_isLT_iff (hxs v hmem), decide_eq_true hrev]
    rw [putElement, ← hhas]
    simp only [hnewer]
    split_ifs
    · rfl
    · have hid : has (.doc (childElement op revision true)) = true :=
        decide_eq_true (h.path_childElement htarget)
      rw [filter_append, hothers, nil_append, filter_singleton, hid]
      rfl
  have hstamp : Stamps op → (xs.map fun v => if has v then
        mergeElement (archiveMutation c op revision true) v else v).filter (has) =
      (xs.filter (has)).map
        (mergeElement (archiveMutation c op revision true)) := by
    intro hst
    have hid : ∀ v, has (if has v then
        mergeElement (archiveMutation c op revision true) v else v) = has v := by
      intro v
      split_ifs
      · rw [hhas, hasID, path_mergeElement (h.idColumn_not_mem (h.archivable hst)), hasID]
      · rfl
    rw [filter_map]
    simp only [Function.comp_def, hid]
    refine map_congr_left fun v hv => ?_
    rw [if_pos (mem_filter.1 hv).2]
  cases hop : op.op with
  | insert | update =>
    have hputs : PutsIn op := by simp [PutsIn, hop]
    simp only [editSegment, hop, hput hputs, hputs, true_and, editElements, if_true]
  | archive | unarchive =>
    have hst : Stamps op := by simp [Stamps, hop]
    have hputs : ¬PutsIn op := by simp [PutsIn, hop]
    simp [editSegment, hop, ← hhas, hstamp hst, hputs, editElements, hst]
  | delete =>
    have hst : ¬Stamps op := by simp [Stamps, hop]
    have hputs : ¬PutsIn op := by simp [PutsIn, hop]
    simp [editSegment, hop, ← hhas, hothers, hputs, editElements, hst]
  | noop => simp [opTarget, hop] at htarget

theorem editElements_doc {o : SharedOp} (hxs : ∀ v ∈ xs, ∃ e, v = .doc e) :
    ∀ v ∈ editElements c o xs, v.path elemRevisionField = some (.int o.revision) := by
  intro v hv
  rw [editElements] at hv
  split_ifs at hv with hput hst
  · obtain rfl := mem_singleton.1 hv
    rw [Value.path_doc, childElement, if_pos rfl, get_set_self]
  · obtain ⟨w, hw, rfl⟩ := mem_map.1 hv
    obtain ⟨e, rfl⟩ := hxs w hw
    simp [mergeElement, archiveMutation, setAll]
  · cases hv

theorem mergeElement_idem (harch : archivedAtOf c ≠ elemRevisionField) (v : Value) :
    mergeElement (archiveMutation c op revision true)
        (mergeElement (archiveMutation c op revision true) v) =
      mergeElement (archiveMutation c op revision true) v := by
  cases v with
  | doc e =>
    simp only [mergeElement, archiveMutation, if_true, setAll, foldl_cons, foldl_nil]
    have hget : ∀ (d : Doc) (x y : Value), get (set (set d
        (archivedAtOf c) x) elemRevisionField y) (archivedAtOf c) = some x := fun d x y => by
      rw [get_set_ne _ _ (Ne.symm harch), get_set_self]
    rw [AssocMap.set_eq_self (hget ..), AssocMap.set_set]
  | _ => rfl

theorem Editable.archivedAtOf_ne (h : Editable c op) (hst : Stamps op) :
    archivedAtOf c ≠ elemRevisionField := by
  obtain ⟨col, hcol⟩ := Option.isSome_iff_exists.1 (h.archivable hst)
  intro he
  refine h.rev_not_key (he ▸ ?_)
  simp [ChildSchema.elementKeys, archivedAtOf, hcol]

end

/-! ### Operations in order -/

/-- The revision of an operation. -/
def sharedRev (o : SharedOp) : ℤ := o.revision

section

variable {schema : TableSchema} {c : ChildSchema} {id : String} {d : Doc} {ops : List SharedOp}
  {o f : SharedOp} {s s' : ElementState}

theorem covers_editElements_self (h : Editable c o.op) : Covers (editElements c) o o := by
  intro xs
  simp only [editElements]
  split_ifs with hput hst
  · rfl
  · rw [map_map]
    refine map_congr_left fun v _ => ?_
    exact mergeElement_idem (h.archivedAtOf_ne hst) v
  · rfl

theorem covers_editElements (h : ¬Stamps o.op) : Covers (editElements c) o f := by
  intro xs
  simp [editElements, if_neg h]

/-- Operations of growing revisions on the element of an id, of which a document holds at most one
that is older than all of them. -/
structure SharedElement (schema : TableSchema) (c : ChildSchema) (id : String)
    (ops : List SharedOp) (d : Doc) : Prop where
  child : c ∈ schema.baseChildren
  editable : ∀ o ∈ ops, Editable c o.op ∧ opTarget c o.op = some id
  growing : ops.Pairwise fun e f => e.revision < f.revision
  segments : ∀ c ∈ schema.allChildren, HasSegment d c.segment
  one : (elementsOf c id d).length ≤ 1
  older : ∀ v ∈ elementsOf c id d, ElemWatermarked v ∧ ∀ o ∈ ops, elemRevision v < o.revision

/-- The elements of a document before the first operation, with their watermark. -/
def elementStart (c : ChildSchema) (id : String) (d : Doc) : Replica (List Value) :=
  ⟨((elementsOf c id d).head?.map elemRevision).getD (-1), elementsOf c id d⟩

/-- The element is the one the operations up to the newest applied leave in order. -/
structure ElementInv (schema : TableSchema) (c : ChildSchema) (id : String) (ops : List SharedOp)
    (d : Doc) (s : ElementState) (r : Replica (List Value)) : Prop where
  segments : ∀ c ∈ schema.allChildren, HasSegment s.doc c.segment
  upTo : UpTo sharedRev (editElements c) (elementStart c id d) ops r
  value : r.value = elementsOf c id s.doc
  applied : ∀ p ∈ s.applied, sharedRev p ≤ r.revision
  newest : (s.applied = [] ∧ r = elementStart c id d) ∨ ∃ p ∈ s.applied, r.revision = sharedRev p
  one : r.value.length ≤ 1
  revisions : ∀ v ∈ r.value, ElemWatermarked v ∧ elemRevision v ≤ r.revision

theorem SharedElement.growingFrom (h : SharedElement schema c id ops d) :
    Growing sharedRev (elementStart c id d) ops := by
  refine ⟨h.growing.imp fun hlt => Int.ofNat_lt.2 hlt, fun o ho => ?_⟩
  simp only [elementStart, sharedRev]
  cases hxs : elementsOf c id d with
  | nil => simp; omega
  | cons v xs =>
    have := (h.older v (by simp [hxs])).2 o ho
    simpa using this

theorem elementInv_start (h : SharedElement schema c id ops d) :
    ElementInv schema c id ops d { doc := d } (elementStart c id d) := by
  refine ⟨h.segments, .start ops, rfl, nofun, .inl ⟨rfl, rfl⟩, h.one, fun v hv => ?_⟩
  refine ⟨(h.older v hv).1, ?_⟩
  have hone := h.one
  have hv : v ∈ elementsOf c id d := hv
  simp only [elementStart]
  cases hxs : elementsOf c id d with
  | nil => simp [hxs] at hv
  | cons w xs =>
    obtain rfl : xs = [] := by simpa [hxs] using hone
    obtain rfl : v = w := by simpa [hxs] using hv
    exact le_rfl

variable {r : Replica (List Value)}

theorem ElementInv.docs (h : ElementInv schema c id ops d s r) :
    ∀ v ∈ r.value, ∃ e, v = .doc e := by
  intro v hv
  rw [h.value] at hv
  exact exists_doc_of_hasID (mem_filter.1 hv).2

variable (hsh : SharedElement schema c id ops d)
include hsh

theorem step_elementMachine (ho : o ∈ ops)
    (hseg : ∀ c ∈ schema.allChildren, HasSegment s.doc c.segment)
    (hxs : ∀ v ∈ elementsOf c id s.doc, ElemWatermarked v) :
    ∃ s', (elementMachine schema c).step s o = some s' ∧
      s'.applied = s.applied ++ [o] ∧ (∀ c ∈ schema.allChildren, HasSegment s'.doc c.segment) ∧
      elementsOf c id s'.doc =
        if PutsIn o.op ∧ ∃ v ∈ elementsOf c id s.doc, (o.revision : ℤ) ≤ elemRevision v then
          elementsOf c id s.doc
        else editElements c o (elementsOf c id s.doc) := by
  obtain ⟨hedit, htarget⟩ := hsh.editable o ho
  have hc : c ∈ schema.allChildren := mem_append_right _ hsh.child
  have hgroups : (keys [(c.typeName, [o.op])]).Nodup := nodup_singleton _
  obtain ⟨d', hrun, hsegs, -⟩ := baseChildStages_run hgroups o.revision hseg
  refine ⟨{ doc := d', applied := s.applied ++ [o] }, ?_, rfl, fun c' hc' => (hsegs c' hc').1, ?_⟩
  · simp [elementMachine, hrun]
  · have hget : get [(c.typeName, [o.op])] c.typeName = some [o.op] := by
      rw [get_cons, if_pos rfl]
    have hval := (hsegs c hc).2
    rw [hget] at hval
    simp only [Option.getD_some, foldl_cons, foldl_nil, editOp, htarget] at hval
    rw [elementsOf, hval]
    exact filter_editSegment hedit htarget hxs

/-- **Step.** An operation in turn. -/
theorem ElementInv.step (h : ElementInv schema c id ops d s r) (ho : o ∈ ops)
    (hturn : InTurn c id ops s o) :
    ∃ s', (elementMachine schema c).step s o = some s' ∧
      s'.applied = s.applied ++ [o] ∧
      ElementInv schema c id ops d s' (r.apply sharedRev (editElements c) o) ∧
      ∀ v ∈ elementsOf c id s.doc, ∀ v' ∈ elementsOf c id s'.doc,
        elemRevision v ≤ elemRevision v' := by
  have hedit := (hsh.editable o ho).1
  obtain ⟨s', hs', happlied, hseg, helems⟩ := step_elementMachine hsh ho h.segments
    (h.value ▸ fun v hv => (h.revisions v hv).1)
  refine ⟨s', hs', happlied, ?_⟩
  rw [← h.value] at helems ⊢
  rcases hturn with ⟨hnew, hskip⟩ | ⟨⟨p, hp, hlt⟩, hidle⟩
  · -- the newest operation so far
    have hle : r.revision ≤ sharedRev o := by
      rcases h.newest with ⟨-, rfl⟩ | ⟨p, hp, hrev⟩
      · exact (hsh.growingFrom.init o ho).le
      · rw [hrev]
        exact Int.ofNat_le.2 (hnew p hp)
    have happly : r.apply sharedRev (editElements c) o = r.force sharedRev (editElements c) o :=
      if_pos hle
    have hforced : elementsOf c id s'.doc = editElements c o r.value := by
      rw [helems]
      split_ifs with hnewer
      · -- the guard holds it back when it comes again
        obtain ⟨hput, v, hv, hrev⟩ := hnewer
        have heq : r.revision = sharedRev o := le_antisymm hle (hrev.trans (h.revisions v hv).2)
        obtain ⟨r0, rfl⟩ := h.upTo.eq_force hsh.growingFrom ho heq
        exact (covers_editElements_self hedit r0.value).symm
      · rfl
    have hrev' : ∀ v ∈ editElements c o r.value, v.path elemRevisionField =
        some (.int o.revision) := editElements_doc h.docs
    have hcov : ∀ f ∈ ops, r.revision < sharedRev f → sharedRev f < sharedRev o →
        Covers (editElements c) o f := by
      intro f hf hlt hlt'
      by_cases hst : Stamps o.op
      · obtain ⟨p, hp, hle⟩ := hskip hst f hf (Int.ofNat_lt.1 hlt')
        have hp := h.applied p hp
        simp only [sharedRev] at hp hlt
        omega
      · exact covers_editElements hst
    have hup := h.upTo.apply hsh.growingFrom ho (covers_editElements_self hedit) hcov
    rw [happly] at hup ⊢
    refine ⟨⟨hseg, hup, hforced.symm, fun p hp => ?_, .inr ⟨o, by simp [happlied], rfl⟩, ?_,
      fun v hv => ?_⟩, fun v hv v' hv' => ?_⟩
    · rw [happlied, mem_concat] at hp
      rcases hp with hp | rfl
      · exact (h.applied p hp).trans hle
      · exact le_rfl
    · simp only [Replica.force, editElements]
      split_ifs
      · exact le_rfl
      · simpa using h.one
      · exact Nat.zero_le _
    · have hv := hrev' v hv
      refine ⟨.inr ⟨_, hv⟩, ?_⟩
      rw [elemRevision, hv]
      exact le_rfl
    · rw [hforced] at hv'
      have hv' := hrev' v' hv'
      have hrev : elemRevision v' = o.revision := by rw [elemRevision, hv']
      rw [hrev]
      exact (h.revisions v hv).2.trans hle
  · -- an older one, which changes nothing
    have hlt : ¬r.revision ≤ sharedRev o := by
      have := h.applied p hp
      simp only [sharedRev] at this ⊢
      omega
    have happly : r.apply sharedRev (editElements c) o = r := if_neg hlt
    have hsame : elementsOf c id s'.doc = r.value := by
      rw [helems]
      rcases hidle with ⟨hput, hnewer⟩ | ⟨hput, hnone⟩
      · rw [← h.value] at hnewer
        rw [if_pos ⟨hput, hnewer⟩]
      · rw [if_neg fun hc => hput hc.1, h.value, hnone, editElements, if_neg hput]
        split_ifs <;> rfl
    rw [happly]
    refine ⟨⟨hseg, h.upTo, hsame.symm, fun q hq => ?_, .inr ?_, h.one, h.revisions⟩,
      fun v hv v' hv' => ?_⟩
    · rw [happlied, mem_concat] at hq
      rcases hq with hq | rfl
      · exact h.applied q hq
      · exact (Int.not_le.1 hlt).le
    · rcases h.newest with ⟨hnil, -⟩ | ⟨q, hq, hrev⟩
      · simp [hnil] at hp
      · exact ⟨q, by simp [happlied, hq], hrev⟩
    · rw [hsame] at hv'
      have hone := h.one
      rcases hxs : r.value with _ | ⟨w, _ | ⟨w', xs⟩⟩
      · simp [hxs] at hv
      · obtain rfl : v = w := by simpa [hxs] using hv
        obtain rfl : v' = v := by simpa [hxs] using hv'
        exact le_rfl
      · simp [hxs] at hone

/-- **Run.** -/
theorem ElementInv.run {as : List SharedOp} (h : ElementInv schema c id ops d s r)
    (hmem : ∀ o ∈ as, o ∈ ops) (hturn : (elementMachine schema c).Along (InTurn c id ops) s as) :
    ∃ s', (elementMachine schema c).run s as = some s' ∧
      s'.applied = s.applied ++ as ∧
      ElementInv schema c id ops d s' (as.foldl (Replica.apply sharedRev (editElements c)) r) := by
  induction as generalizing s r with
  | nil => exact ⟨s, rfl, (append_nil _).symm, h⟩
  | cons o as ih =>
    obtain ⟨s1, hs1, happ1, h1, -⟩ := h.step hsh (hmem o mem_cons_self) hturn.1
    obtain ⟨s', hs', happ, h'⟩ := ih h1 (fun f hf => hmem f (mem_cons_of_mem _ hf))
      ((along_cons hs1).1 hturn).2
    refine ⟨s', ?_, ?_, h'⟩
    · rw [run_cons, hs1]
      exact hs'
    · rw [happ, happ1, append_assoc]
      rfl

theorem along_inTurn {pre post : List SharedOp} (hops : ops = pre ++ post)
    (happ : s.applied = pre) : (elementMachine schema c).Along (InTurn c id ops) s post := by
  induction post generalizing s pre with
  | nil => trivial
  | cons o post ih =>
    have hgrow := hsh.growing
    rw [hops, pairwise_append] at hgrow
    refine ⟨.inl ⟨fun p hp => ?_, fun _ f hf hlt => ?_⟩, ?_⟩
    · exact (hgrow.2.2 p (happ ▸ hp) o mem_cons_self).le
    · rw [hops, mem_append, mem_cons] at hf
      rcases hf with hf | rfl | hf
      · exact ⟨f, happ ▸ hf, le_rfl⟩
      · exact absurd hlt (lt_irrefl _)
      · have := (pairwise_cons.1 hgrow.2.1).1 f hf
        omega
    · split
      · rename_i s' hs'
        refine ih (hops.trans (append_cons ..)) ?_
        simp only [elementMachine] at hs'
        split at hs'
        · cases hs'
          rw [happ]
        · cases hs'
      · trivial

omit hsh

theorem run_inOrder (pre post : List SharedOp) (hsh : SharedElement schema c id (pre ++ post) d) :
    ∃ s, (elementMachine schema c).run { doc := d } pre = some s ∧
      elementsOf c id s.doc =
        (pre.foldl (Replica.force sharedRev (editElements c)) (elementStart c id d)).value := by
  have hpre : SharedElement schema c id pre d :=
    ⟨hsh.child, fun o ho => hsh.editable o (by simp [ho]), (pairwise_append.1 hsh.growing).1,
      hsh.segments, hsh.one,
      fun v hv => ⟨(hsh.older v hv).1, fun o ho => (hsh.older v hv).2 o (by simp [ho])⟩⟩
  obtain ⟨s, hs, -, hinv⟩ := (elementInv_start hpre).run hpre (fun o ho => ho)
    (along_inTurn hpre (nil_append pre).symm rfl)
  have hfold := (Redelivers.refl [] pre).foldl_apply hpre.growingFrom fun o ho =>
    covers_editElements_self (hpre.editable o ho).1
  refine ⟨s, hs, ?_⟩
  rw [← hinv.value]
  exact congrArg Replica.value hfold

end

/-- **Shared elements are last-writer-wins** along every run in which the operations come in turn:
in every state it reaches the element is the one that some first operations leave in order, and its
watermark has not gone back; at the end it is the one that all of them leave in order. -/
theorem shared_element_last_writer {schema : TableSchema} {c : ChildSchema} {id : String} {d : Doc}
    {ops as : List SharedOp} (hsh : SharedElement schema c id ops d) (hmem : ∀ o ∈ as, o ∈ ops)
    (hall : ∀ o ∈ ops, o ∈ as)
    (hturn : (elementMachine schema.toSchemaDecl c).Along (InTurn c id ops) { doc := d } as) :
    (∀ pre o post, as = pre ++ o :: post →
      ∃ s s', (elementMachine schema.toSchemaDecl c).run { doc := d } pre = some s ∧
        (elementMachine schema.toSchemaDecl c).run { doc := d } (pre ++ [o]) = some s' ∧
        (∀ v ∈ elementsOf c id s.doc, ∀ v' ∈ elementsOf c id s'.doc,
          elemRevision v ≤ elemRevision v') ∧
        ∃ before after t, ops = before ++ after ∧
          (elementMachine schema.toSchemaDecl c).run { doc := d } before = some t ∧
          elementsOf c id s'.doc = elementsOf c id t.doc) ∧
    ∃ s t, (elementMachine schema.toSchemaDecl c).run { doc := d } as = some s ∧
      (elementMachine schema.toSchemaDecl c).run { doc := d } ops = some t ∧
      elementsOf c id s.doc = elementsOf c id t.doc := by
  have hstart := elementInv_start hsh
  constructor
  · rintro pre o post rfl
    obtain ⟨hpre, hrest⟩ := along_append.1 hturn
    obtain ⟨s, hs, -, hinv⟩ := hstart.run hsh (fun f hf => hmem f (by simp [hf])) hpre
    obtain ⟨s', hs', -, hinv', hmono⟩ := hinv.step hsh (hmem o (by simp)) (hrest s hs).1
    refine ⟨s, s', hs, ?_, hmono, ?_⟩
    · rw [run_append, hs]
      simp [hs']
    · obtain ⟨before, after, hops, hr⟩ := hinv'.upTo
      subst hops
      obtain ⟨t, ht, hval⟩ := run_inOrder before after hsh
      refine ⟨before, after, t, rfl, ht, ?_⟩
      rw [hval, ← hinv'.value, hr]
  · obtain ⟨s, hs, happ, hinv⟩ := hstart.run hsh hmem hturn
    have hlast := hinv.upTo.value_eq hsh.growingFrom fun o ho => hinv.applied o (by
      rw [happ]
      exact hall o ho)
    obtain ⟨t, ht, hval⟩ := run_inOrder ops [] (by rw [append_nil]; exact hsh)
    refine ⟨s, t, hs, ht, ?_⟩
    rw [hval, ← hinv.value, hlast]

/-! ### Phones of a person -/

/-- The phones. -/
def phones : ChildSchema where
  typeName := "Phone"
  table := "phone"
  segment := "phones"
  idColumn := "id"
  parentIDColumn := "person_id"
  fields := [{ column := "number" }]
  archivedAt := some "archived_at"

/-- Students of a shared person with phones. -/
def students : TableSchema where
  table := "student"
  idColumn := "id"
  fields := [{ column := "course" }]
  revisionColumn := "revision"
  sharedBase := some {
    base := {
      table := "person", idColumn := "id", fields := [{ column := "name" }]
      naturalIDColumn := "name", revisionColumn := "revision"
      children := [phones] }
    parentIDColumn := "person_id" }

/-- An operation on one phone. -/
def phoneOp (op : ChildOpName) (number : String) (revision : ℕ) : SharedOp :=
  ⟨⟨op, [("id", .str "p"), ("number", .str number)]⟩, revision⟩

theorem sharedElement_phones {ops : List SharedOp}
    (htarget : ∀ o ∈ ops, opTarget phones o.op = some "p")
    (hgrow : ops.Pairwise fun e f => e.revision < f.revision) :
    SharedElement students phones "p" ops [("_id", .str "s")] := by
  have hphones : phones ∈ students.baseChildren := mem_singleton.2 rfl
  have hkeys := students.elements_nodup phones (mem_append_right _ hphones)
  refine ⟨hphones, fun o ho => ⟨⟨hkeys.1, hkeys.2, fun _ => rfl⟩, htarget o ho⟩, hgrow,
    fun c hc => .inl ?_, Nat.zero_le _, nofun⟩
  obtain rfl : c = phones := mem_singleton.1 hc
  rfl

/-- An update that overtakes another one, and the overtaken ones again. -/
theorem phones_in_turn :
    ∃ s t, (elementMachine students.toSchemaDecl phones).run { doc := [("_id", .str "s")] }
        [phoneOp .insert "1" 2, phoneOp .update "3" 4, phoneOp .update "2" 3,
          phoneOp .archive "3" 5, phoneOp .insert "1" 2] = some s ∧
      (elementMachine students.toSchemaDecl phones).run { doc := [("_id", .str "s")] }
        [phoneOp .insert "1" 2, phoneOp .update "2" 3, phoneOp .update "3" 4,
          phoneOp .archive "3" 5] = some t ∧
      elementsOf phones "p" s.doc = elementsOf phones "p" t.doc :=
  (shared_element_last_writer (sharedElement_phones (by decide) (by decide)) (by decide) (by decide)
    (by decide +kernel)).2

/-- An insert that comes after the deletion of a higher revision brings the phone back. -/
theorem deleted_phone_comes_back :
    SharedElement students phones "p" [phoneOp .insert "1" 2, phoneOp .delete "1" 3]
      [("_id", .str "s")] ∧
    ∃ s ∈ (elementMachine students.toSchemaDecl phones).run { doc := [("_id", .str "s")] }
        [phoneOp .delete "1" 3, phoneOp .insert "1" 2],
      ∃ t ∈ (elementMachine students.toSchemaDecl phones).run { doc := [("_id", .str "s")] }
        [phoneOp .insert "1" 2, phoneOp .delete "1" 3],
      elementsOf phones "p" s.doc ≠ [] ∧ elementsOf phones "p" t.doc = [] := by
  refine ⟨sharedElement_phones (by decide) (by decide), ?_⟩
  decide +kernel

end Omnicore.Query
