import Omnicore.Query.ConsultGuard

/-!
# Payload-direct projection

An event carries the whole state of its write, so the document of a view without embeds is updated
from the payload alone: the columns of the root behind the watermark of the document, those of the
shared base behind the watermark of the base, and each child collection element by element.  The
elements of a base's collection carry a watermark of their own.

## Main definitions

* `buildProjectionStages`, `buildFanOutStages` : the pipelines of an event.
* `editSegment` : what one operation does to the elements of a collection.

## Main results

* `buildProjectionStages_run` : the document after the pipeline of an event.
-/

namespace Omnicore.Query

open Omnicore.Core Domain Write List AssocMap SchemaDecl Expr SetStage Value Except

/-- The watermark of an element of a base child's segment. -/
def elemRevisionField : String := "_rev"

/-! ### Stages -/

/-- The stored watermark is not past a revision. -/
def appliesAt (watermark : String) (rev : ℤ) : Expr :=
  .or (newerThan watermark rev) (atRevision watermark rev)

/-- Columns that apply while the watermark is not past the revision; the watermark only advances. -/
def guardedSetStage (watermark : String) (set : SetStage) (rev : ℤ) : SetStage :=
  AssocMap.set (set.map fun p => (p.1, .cond (appliesAt watermark rev) p.2 (.field p.1))) watermark
    (advancedWatermark watermark rev)

variable (child : ChildSchema)

/-- The archive column of a child. -/
def archivedAtOf : String := child.archivedAt.getD "archived_at"

variable (schema : SchemaDecl) (ev : Payload) (op : ChildPayload)

variable (revision : ℕ) (guarded : Bool)

/-- What an archive or unarchive changes in an element. -/
def archiveMutation : Doc :=
  (archivedAtOf child, (op.fields.get (archivedAtOf child)).getD .null) ::
    if guarded then [(elemRevisionField, .int revision)] else []

/-- The element of an inserted or updated child. -/
def childElement : Doc :=
  if guarded then set op.fields elemRevisionField (.int revision) else op.fields

/-- The stored array of a segment, empty where it is missing. -/
def storedArray : Expr := .ifNull (.field child.segment) (.lit (.arr []))

/-- The element bound by a filter or a map is the one of an id. -/
def elementMatches (id : String) : Expr := .eq (.varPath "this" child.idColumn) (.lit (.str id))

/-- The elements of other ids. -/
def otherElements (id : String) : Expr :=
  .filter (storedArray child) "this" (.not (elementMatches child id))

/-- The element of an id is there at a revision or a later one: a racing writer that entered the
base later has landed already. -/
def newerExists (id : String) (revision : ℕ) : Expr :=
  .gt (.size (.filter (.filter (storedArray child) "this" (elementMatches child id)) "this"
    (.gte (.varPath "this" elemRevisionField) (.lit (.int revision))))) (.lit (.int 0))

/-- The new array of a segment after one operation on the element of an id. -/
def childArrayExpr (id : String) (op : ChildPayload) (revision : ℕ) (guarded : Bool) : Expr :=
  match op.op with
  | .insert | .update =>
    let replaced : Expr := .concatArrays (otherElements child id)
      (.lit (.arr [.doc (childElement op revision guarded)]))
    if guarded then .cond (newerExists child id revision) (storedArray child) replaced
    else replaced
  | .archive | .unarchive =>
    .map (storedArray child) "this" (.cond (elementMatches child id)
      (.mergeObjects (.var "this") (.lit (.doc (archiveMutation child op revision guarded))))
      (.var "this"))
  | .delete => otherElements child id
  | .noop => storedArray child

/-- The id of the element an operation edits, absent where nothing is done or the element has no
key. -/
def opTarget : Option String :=
  if op.op = .noop then none
  else match op.fields.get child.idColumn with
    | some (.str id) => if id = "" then none else some id
    | _ => none

/-- The stage of one operation. -/
def childStage (op : ChildPayload) : Option SetStage :=
  (opTarget child op).map fun id =>
    [(child.segment, childArrayExpr child id op revision guarded)]

/-- The stages of a block of children. -/
def childStages (groups : AssocMap String (List ChildPayload)) (revision : ℕ) (guarded : Bool) :
    List SetStage :=
  groups.flatMap fun (typeName, ops) =>
    match schema.resolveAggregateChild typeName with
    | some (child, _) => ops.filterMap (childStage child revision guarded)
    | none => []

/-- Guard every expression of a stage by the watermark of the document. -/
def guardByRevision (rev : ℤ) (stage : SetStage) : SetStage :=
  stage.map fun p => (p.1, .cond (appliesAt docRevisionField rev) p.2 (.field p.1))

/-- The edits of the own children, behind the watermark of the document. -/
def ownGuardedChildStages : List SetStage :=
  (childStages schema ev.children 0 false).map (guardByRevision ev.ids.revision)

/-- Every declared segment exists on the document. -/
def segmentNormalizeStage : SetStage := schema.allChildren.map fun c => (c.segment, storedArray c)

/-- Drop the columns of a sibling whose row the write removed: all of them null. -/
def dropSibling (scalars : Fields) (own : SetStage) (sib : SiblingSchema) : SetStage :=
  let present := (columns sib.fields).filter (· ∈ scalars.keys)
  if present ≠ [] ∧ ∀ c ∈ present, scalars.get c = some .null then
    present.foldl (fun own c => set own c .remove) own
  else own

/-- The columns of the root in an event. -/
def ownSet : SetStage :=
  let own : SetStage := (ev.scalars.filter fun p =>
    p.1 ≠ schema.revisionColumn ∧ p.1 ∉ schema.sharedBaseBusinessColumns).map
      fun p => (p.1, .lit p.2)
  let own := schema.siblings.foldl (dropSibling ev.scalars) own
  -- the id column is no write field
  if ev.ids.id = "" then own else set own schema.idColumn (.lit (.str ev.ids.id))

/-- The columns of the shared base in an event. -/
def baseSet : SetStage :=
  (ev.scalars.filter fun p =>
    p.1 ≠ schema.revisionColumn ∧ p.1 ∈ schema.sharedBaseBusinessColumns).map
      fun p => (p.1, .lit p.2)

/-- The event carries columns of a shared base, with its identity and revision. -/
def CarriesBase (set : SetStage) (ids : OutboxMeta) : Prop :=
  set ≠ [] ∧ ids.baseID ≠ "" ∧ 0 < ids.baseRevision

instance (set : SetStage) (ids : OutboxMeta) : Decidable (CarriesBase set ids) :=
  inferInstanceAs (Decidable (_ ∧ _ ∧ _))

/-- The stage of the shared-base columns. -/
def baseStages (set : SetStage) (ids : OutboxMeta) : List SetStage :=
  if CarriesBase set ids then
    [guardedSetStage docBaseRevisionField set ids.baseRevision]
  else []

/-- The pipeline of an event on the document of its own aggregate. -/
def buildProjectionStages : List SetStage :=
  ownGuardedChildStages schema ev ++
  childStages schema ev.baseChildren ev.ids.baseRevision true ++
  baseStages (baseSet schema ev) ev.ids ++
  -- the stages above read the watermark this one advances
  (if ownSet schema ev = [] then [] else
    [guardedSetStage docRevisionField (ownSet schema ev) ev.ids.revision]) ++
  (if segmentNormalizeStage schema = [] then [] else [segmentNormalizeStage schema])

/-- The shared-identity part of an event, on the documents of the other roles. -/
def buildFanOutStages : List SetStage :=
  let base : SetStage := schema.sharedBaseBusinessColumns.filterMap fun c =>
    (ev.scalars.get c).map fun v => (c, .lit v)
  baseStages base ev.ids ++ childStages schema ev.baseChildren ev.ids.baseRevision true

/-! ### Operations on the elements of a segment -/

/-- The element is the one of an id. -/
def hasID (pk id : String) (v : Value) : Bool := v.path pk = some (.str id)

/-- An element with some fields overwritten. -/
def mergeElement (m : Doc) : Value → Value
  | .doc d => .doc (setAll d m)
  | v => v

/-- The elements of the other ids, then the one of the operation; under a guard an element that is
not older stays. -/
def putElement (id : String) (op : ChildPayload) (revision : ℕ) (guarded : Bool) (xs : List Value) :
    List Value :=
  if guarded && xs.any fun v => hasID child.idColumn id v &&
      !isLT (v.path elemRevisionField) (some (.int revision)) then xs
  else (xs.filter fun v => !hasID child.idColumn id v) ++ [.doc (childElement op revision guarded)]

/-- One operation on the element of an id. -/
def editSegment (id : String) (op : ChildPayload) (revision : ℕ) (guarded : Bool)
    (xs : List Value) : List Value :=
  match op.op with
  | .insert | .update => putElement child id op revision guarded xs
  | .archive | .unarchive => xs.map fun v =>
      if hasID child.idColumn id v then mergeElement (archiveMutation child op revision guarded) v
      else v
  | .delete => xs.filter fun v => !hasID child.idColumn id v
  | .noop => xs

/-- One operation of a block. -/
def editOp (xs : List Value) (op : ChildPayload) : List Value :=
  match opTarget child op with
  | some id => editSegment child id op revision guarded xs
  | none => xs

/-- The elements of a segment. -/
def segment (d : Doc) (seg : String) : List Value :=
  match d.get seg with
  | some (.arr xs) => xs
  | _ => []

/-- A segment is missing or an array. -/
def HasSegment (d : Doc) (seg : String) : Prop :=
  d.get seg = none ∨ ∃ xs, d.get seg = some (.arr xs)

section

variable {d : Doc} {child : ChildSchema} {op : ChildPayload} {id : String} {revision : ℕ}
  {guarded : Bool}

theorem eval_storedArray (h : HasSegment d child.segment) :
    (storedArray child).eval d [] = .ok (some (.arr (segment d child.segment))) := by
  rw [storedArray, segment]
  rcases h with h | ⟨xs, h⟩
  · rw [eval_ifNull_none (by rw [eval_field, h]), h, eval_lit]
  · rw [eval_ifNull_some (by rw [eval_field, h]) (by simp), h]

theorem eval_elementMatches (child : ChildSchema) (id : String) (v : Value) :
    (elementMatches child id).eval d (set [] "this" v) =
      .ok (some (.bool (hasID child.idColumn id v))) := by
  rfl

theorem eval_otherElements (id : String) (h : HasSegment d child.segment) :
    (otherElements child id).eval d [] = .ok (some (.arr ((segment d child.segment).filter
      fun v => !hasID child.idColumn id v))) :=
  eval_filter (eval_storedArray h) fun v _ => eval_not (eval_elementMatches child id v)

theorem eval_newerExists (h : HasSegment d child.segment) :
    (newerExists child id revision).eval d [] = .ok (some (.bool ((segment d child.segment).any
      fun v => hasID child.idColumn id v &&
        !isLT (v.path elemRevisionField) (some (.int revision))))) := by
  have hmatch := eval_filter (eval_storedArray h) fun v _ => eval_elementMatches child id v
  have hgte : ∀ v, (gte (.varPath "this" elemRevisionField) (.lit (.int revision))).eval d
      (set [] "this" v) =
        .ok (some (.bool !isLT (v.path elemRevisionField) (some (.int revision)))) := by
    intro v
    rfl
  have hfilter := eval_filter hmatch fun v _ => hgte v
  rw [newerExists, eval_gt (eval_size hfilter) (eval_lit _), isLT_int, filter_filter]
  congr 3
  rw [Bool.eq_iff_iff, decide_eq_true_eq, any_eq_true]
  simp [length_pos_iff_exists_mem, and_comm]

theorem exists_doc_of_hasID {pk : String} {v : Value} (h : hasID pk id v = true) :
    ∃ e, v = .doc e := by
  rw [hasID, decide_eq_true_eq] at h
  cases v with
  | doc e => exact ⟨e, rfl⟩
  | _ => simp [path] at h

theorem eval_childArrayExpr (h : HasSegment d child.segment) :
    (childArrayExpr child id op revision guarded).eval d [] =
      .ok (some (.arr (editSegment child id op revision guarded (segment d child.segment)))) := by
  have hreplaced := eval_concatArrays (eval_otherElements id h)
    (eval_lit (.arr [.doc (childElement op revision guarded)]))
  have hput : (if guarded then cond (newerExists child id revision) (storedArray child)
        (.concatArrays (otherElements child id)
          (.lit (.arr [.doc (childElement op revision guarded)])))
      else .concatArrays (otherElements child id)
        (.lit (.arr [.doc (childElement op revision guarded)]))).eval d [] =
      .ok (some (.arr (putElement child id op revision guarded (segment d child.segment)))) := by
    rw [putElement]
    cases guarded with
    | false => exact hreplaced
    | true =>
      rw [if_pos rfl, eval_cond (eval_newerExists h), eval_storedArray h, hreplaced, Bool.true_and]
      split_ifs <;> rfl
  have hmap : (map (storedArray child) "this" (.cond (elementMatches child id)
      (.mergeObjects (.var "this") (.lit (.doc (archiveMutation child op revision guarded))))
      (.var "this"))).eval d [] = .ok (some (.arr ((segment d child.segment).map fun v =>
        if hasID child.idColumn id v then mergeElement (archiveMutation child op revision guarded) v
        else v))) := by
    refine eval_map (eval_storedArray h) fun v _ => ?_
    have hvar : (var "this").eval d (set [] "this" v) = .ok (some v) := by
      rw [eval_var, get_set_self]
    rw [eval_cond (eval_elementMatches child id v)]
    split_ifs with hid
    · obtain ⟨e, rfl⟩ := exists_doc_of_hasID hid
      exact eval_mergeObjects hvar (eval_lit _)
    · exact hvar
  cases hop : op.op <;> simp only [childArrayExpr, editSegment, hop]
  · exact hput
  · exact hput
  · exact hmap
  · exact hmap
  · exact eval_otherElements id h
  · exact eval_storedArray h

/-! ### The stages of a block of children -/

variable {gate : String → Expr → Expr}

/-- A stage of one segment behind a gate: while the gate is open the segment is edited, otherwise it
stays. -/
theorem runStages_gated {I : Doc → Prop} {isOpen : Bool}
    (hI : ∀ d v, I d → I (d.put child.segment v))
    (hgate : ∀ d k e, I d → (gate k e).eval d [] = if isOpen then e.eval d [] else .ok (d.get k))
    (ops : List ChildPayload) (hd : I d) (hs : HasSegment d child.segment) :
    ∃ d', runStages d ((ops.filterMap (childStage child revision guarded)).map fun stage =>
        stage.map fun p => (p.1, gate p.1 p.2)) = .ok d' ∧ I d' ∧ HasSegment d' child.segment ∧
      segment d' child.segment = (if isOpen then
        ops.foldl (editOp child revision guarded) (segment d child.segment)
        else segment d child.segment) ∧
      ∀ k, k ≠ child.segment → d'.get k = d.get k := by
  induction ops generalizing d with
  | nil => exact ⟨d, rfl, hd, hs, by simp, fun _ _ => rfl⟩
  | cons op ops ih =>
    cases htarget : opTarget child op with
    | none =>
      have hstage : childStage child revision guarded op = none := by simp [childStage, htarget]
      have hedit : editOp child revision guarded (segment d child.segment) op =
        segment d child.segment := by simp [editOp, htarget]
      rw [filterMap_cons_none hstage, foldl_cons, hedit]
      exact ih hd hs
    | some id =>
      have hstage : childStage child revision guarded op =
        some [(child.segment, childArrayExpr child id op revision guarded)] := by
          simp [childStage, htarget]
      have hedit : editOp child revision guarded (segment d child.segment) op =
          editSegment child id op revision guarded (segment d child.segment) := by
        simp [editOp, htarget]
      -- what the gate makes of the segment
      obtain ⟨v, hv, hseg, hval⟩ : ∃ v, (gate child.segment (childArrayExpr child id op revision
            guarded)).eval d [] = .ok v ∧ HasSegment (d.put child.segment v) child.segment ∧
          segment (d.put child.segment v) child.segment = if isOpen then
            editSegment child id op revision guarded (segment d child.segment)
            else segment d child.segment := by
        rw [hgate d _ _ hd, eval_childArrayExpr hs]
        simp only [HasSegment, segment, get_put, if_true]
        cases isOpen with
        | true => exact ⟨_, rfl, .inr ⟨_, rfl⟩, rfl⟩
        | false => exact ⟨_, rfl, hs, rfl⟩
      obtain ⟨d', hrun, hI', hseg', hval', hframe⟩ := ih (hI d v hd) hseg
      have happly := apply_singleton (k := child.segment) hv
      rw [filterMap_cons_some hstage, map_cons, foldl_cons, hedit]
      refine ⟨d', (runStages_cons happly).trans hrun, hI', hseg', ?_, fun k hk => ?_⟩
      · rw [hval', hval]
        split_ifs <;> rfl
      · rw [hframe k hk, get_put, if_neg (Ne.symm hk)]

theorem runStages_childStages {schema : TableSchema} {I : Doc → Prop}
    {isOpen : Bool}
    (hI : ∀ c ∈ schema.allChildren, ∀ d v, I d → I (d.put c.segment v))
    (hgate : ∀ d k e, I d → (gate k e).eval d [] = if isOpen then e.eval d [] else .ok (d.get k))
    {groups : AssocMap String (List ChildPayload)} (hgroups : groups.keys.Nodup) (hd : I d)
    (hs : ∀ c ∈ schema.allChildren, HasSegment d c.segment) :
    ∃ d', runStages d ((childStages schema groups revision guarded).map fun stage =>
        stage.map fun p => (p.1, gate p.1 p.2)) = .ok d' ∧
      (∀ c ∈ schema.allChildren, HasSegment d' c.segment ∧
        segment d' c.segment = if isOpen then ((groups.get c.typeName).getD []).foldl
          (editOp c revision guarded) (segment d c.segment) else segment d c.segment) ∧
      ∀ k, k ∉ schema.allChildren.map ChildSchema.segment → d'.get k = d.get k := by
  induction groups generalizing d with
  | nil => exact ⟨d, rfl, fun c hc => ⟨hs c hc, by simp⟩, fun _ _ => rfl⟩
  | cons group groups ih =>
    obtain ⟨typeName, ops⟩ := group
    rw [AssocMap.keys_cons, nodup_cons] at hgroups
    obtain ⟨hnew, hgroups⟩ := hgroups
    cases hres : schema.resolveAggregateChild typeName with
    | none =>
      obtain ⟨d', hrun, hseg, hframe⟩ := ih hgroups hd hs
      refine ⟨d', ?_, fun c hc => ?_, hframe⟩
      · simpa [childStages, hres] using hrun
      · have hne : typeName ≠ c.typeName := by
          rintro rfl
          obtain ⟨b, hb⟩ := schema.resolveAggregateChild_of_mem hc
          rw [hres] at hb
          cases hb
        rw [get_cons, if_neg hne]
        exact hseg c hc
    | some r =>
      obtain ⟨c0, fromBase⟩ := r
      obtain ⟨hc0, rfl⟩ := resolveAggregateChild_some hres
      obtain ⟨d1, hrun1, hI1, hseg1, hval1, hframe1⟩ :=
        runStages_gated (hI c0 hc0) hgate ops hd (hs c0 hc0)
      have hother : ∀ c ∈ schema.allChildren, c ≠ c0 → d1.get c.segment = d.get c.segment :=
        fun c hc hne => hframe1 _ fun he => hne (schema.segment_injOn hc hc0 he)
      have hs1 : ∀ c ∈ schema.allChildren, HasSegment d1 c.segment := by
        intro c hc
        by_cases he : c = c0
        · exact he ▸ hseg1
        · rw [HasSegment, hother c hc he]
          exact hs c hc
      obtain ⟨d', hrun, hseg, hframe⟩ := ih hgroups hI1 hs1
      refine ⟨d', ?_, fun c hc => ⟨(hseg c hc).1, ?_⟩, fun k hk => ?_⟩
      · have : childStages schema ((c0.typeName, ops) :: groups) revision guarded =
            ops.filterMap (childStage c0 revision guarded) ++
              childStages schema groups revision guarded := by
          simp [childStages, hres]
        rw [this, map_append, runStages_append hrun1, hrun]
      · rw [(hseg c hc).2, get_cons]
        by_cases he : c = c0
        · subst he
          have hnone : get groups c.typeName = none := (get_eq_none_iff ..).2 hnew
          rw [if_pos rfl, hval1, hnone]
          split_ifs <;> rfl
        · have hne : c0.typeName ≠ c.typeName := fun h =>
            he (schema.typeName_injOn hc hc0 h.symm)
          rw [if_neg hne, segment, segment, hother c hc he]
      · rw [hframe k hk, hframe1 k fun he => hk (he ▸ mem_map_of_mem hc0)]

end

/-! ### Guarded columns -/

section

variable {d : Doc} {watermark : String} {rev : ℤ} {set : SetStage}

theorem eval_appliesAt (hrev : 0 ≤ rev) (hw : Watermarked d watermark) :
    (appliesAt watermark rev).eval d [] =
      .ok (some (.bool (storedRevision d watermark ≤ rev))) := by
  rw [appliesAt, eval_or (eval_newerThan hw) (eval_atRevision hrev hw), ← Bool.decide_or,
    decide_eq_decide.2 le_iff_lt_or_eq.symm]

theorem storedRevision_of_get {n : ℤ} (h : d.get watermark = some (.int n)) :
    storedRevision d watermark = n := by
  rw [storedRevision, h]

/-- The document after a guarded stage: its columns apply unless the watermark is past the
revision. -/
theorem guardedSetStage_apply (hrev : 0 ≤ rev) (hw : Watermarked d watermark)
    (hset : ∀ p ∈ set, ∃ v, p.2.eval d [] = .ok v) (hnot : watermark ∉ set.keys) :
    ∃ d', (guardedSetStage watermark set rev).apply d = .ok d' ∧
      d'.get watermark = some (.int (max (storedRevision d watermark) rev)) ∧
      (∀ k e, set.get k = some e → .ok (d'.get k) =
        if storedRevision d watermark ≤ rev then e.eval d [] else .ok (d.get k)) ∧
      ∀ k, k ∉ set.keys → k ≠ watermark → d'.get k = d.get k := by
  have hget : ∀ k, k ≠ watermark → (guardedSetStage watermark set rev).get k =
      (set.get k).map fun e => .cond (appliesAt watermark rev) e (.field k) := by
    intro k hk
    rw [guardedSetStage, get_set_ne _ _ (Ne.symm hk),
      get_map set fun k e => cond (appliesAt watermark rev) e (.field k)]
  have hevals : ∀ p ∈ guardedSetStage watermark set rev, ∃ v, p.2.eval d [] = .ok v := by
    intro p hp
    rcases AssocMap.mem_set hp with hp | rfl
    · obtain ⟨q, hq, rfl⟩ := mem_map.1 hp
      obtain ⟨v, hv⟩ := hset q hq
      rw [eval_cond (eval_appliesAt hrev hw)]
      split_ifs
      · exact ⟨v, hv⟩
      · exact ⟨_, eval_field _⟩
    · exact ⟨_, eval_advancedWatermark hrev hw⟩
  obtain ⟨d', hd'⟩ := apply_ok hevals
  refine ⟨d', hd', ?_, fun k e he => ?_, fun k hk hne => ?_⟩
  · have he := eval_of_apply hd' (AssocMap.get_set_self ..)
    rw [eval_advancedWatermark hrev hw] at he
    exact (ok.inj he).symm
  · have hk : k ≠ watermark := by
      rintro rfl
      exact hnot (by_contra fun h => by rw [(get_eq_none_iff ..).2 h] at he; cases he)
    have hcond := eval_of_apply hd' ((hget k hk).trans (by rw [he]; rfl))
    rw [eval_cond (eval_appliesAt hrev hw), eval_field] at hcond
    rw [← hcond]
    simp
  · exact get_of_apply hd' ((hget k hne).trans (by rw [(get_eq_none_iff ..).2 hk]; rfl))

end

/-! ### The pipeline of an event -/

/-- What the pipeline asks of the document it updates. -/
structure Projectable (schema : TableSchema) (d : Doc) : Prop where
  revision : Watermarked d docRevisionField
  baseRevision : Watermarked d docBaseRevisionField
  segments : ∀ c ∈ schema.allChildren, HasSegment d c.segment

/-- What the pipeline asks of an event: a payload names columns of the document, and each child
type once. -/
structure WellFormed (schema : TableSchema) (ev : Payload) : Prop where
  id : ev.ids.id ≠ ""
  scalars : ∀ k ∈ ev.scalars.keys, k ∈ schema.ownColumns ∨ k ∈ schema.sharedBaseBusinessColumns
  children : ev.children.keys.Nodup
  baseChildren : ev.baseChildren.keys.Nodup

/-- The value a column is set to, absent for one that is dropped. -/
def columnValue : Expr → Option Value
  | .lit v => some v
  | _ => none

/-- The stage sets some columns to values or drops them. -/
def SetsColumns (cols : List String) (set : SetStage) : Prop :=
  ∀ p ∈ set, p.1 ∈ cols ∧ ((∃ v, p.2 = .lit v) ∨ p.2 = .remove)

namespace SetsColumns

variable {cols : List String} {set : SetStage}

section

variable (h : SetsColumns cols set)
include h

theorem eval {p : String × Expr} (hp : p ∈ set) (d : Doc) :
    p.2.eval d [] = .ok (columnValue p.2) := by
  rcases (h p hp).2 with ⟨v, hv⟩ | hv <;> rw [hv] <;> rfl

theorem assign {k : String} {e : Expr} (hk : k ∈ cols) (he : (∃ v, e = .lit v) ∨ e = .remove) :
    SetsColumns cols (AssocMap.set set k e) := by
  intro p hp
  rcases AssocMap.mem_set hp with hp | rfl
  · exact h p hp
  · exact ⟨hk, he⟩

theorem not_mem_keys {k : String} (hk : k ∉ cols) : k ∉ set.keys := by
  rw [AssocMap.keys, mem_map]
  rintro ⟨p, hp, rfl⟩
  exact hk (h p hp).1

theorem guarded_apply (rev : ℕ) {d : Doc} {watermark : String} (hw : Watermarked d watermark)
    (hnot : watermark ∉ cols) :
    ∃ d', (guardedSetStage watermark set rev).apply d = .ok d' ∧
      d'.get watermark = some (.int (max (storedRevision d watermark) rev)) ∧
      (∀ k e, set.get k = some e → d'.get k =
        if storedRevision d watermark ≤ rev then columnValue e else d.get k) ∧
      ∀ k, k ∉ set.keys → k ≠ watermark → d'.get k = d.get k := by
  obtain ⟨d', happly, hmark, hset, hframe⟩ := guardedSetStage_apply (Int.natCast_nonneg rev) hw
    (fun p hp => ⟨_, h.eval hp d⟩) (h.not_mem_keys hnot)
  refine ⟨d', happly, hmark, fun k e he => ?_, hframe⟩
  have hval := hset k e he
  rw [h.eval (p := (k, e)) (mem_of_get he) d] at hval
  split_ifs at hval ⊢ with hle
  · exact ok.inj hval
  · exact ok.inj hval

end

end SetsColumns

section

variable {schema : TableSchema} {ev : Payload}

theorem idColumn_mem_ownColumns (schema : SchemaDecl) : schema.idColumn ∈ schema.ownColumns := by
  simp [ownColumns]

theorem setsColumns_baseSet (schema : SchemaDecl) (ev : Payload) :
    SetsColumns schema.sharedBaseBusinessColumns (baseSet schema ev) := by
  intro p hp
  obtain ⟨q, hq, rfl⟩ := mem_map.1 hp
  have := (mem_filter.1 hq).2
  simp only [ne_eq, decide_eq_true_eq] at this
  exact ⟨this.2, .inl ⟨_, rfl⟩⟩

theorem setsColumns_ownSet (hev : WellFormed schema ev) :
    SetsColumns schema.ownColumns (ownSet schema ev) := by
  have hown : SetsColumns schema.ownColumns ((ev.scalars.filter fun p =>
      p.1 ≠ schema.revisionColumn ∧ p.1 ∉ schema.sharedBaseBusinessColumns).map
        fun p => (p.1, lit p.2)) := by
    intro p hp
    obtain ⟨q, hq, rfl⟩ := mem_map.1 hp
    obtain ⟨hq, hcol⟩ := mem_filter.1 hq
    simp only [ne_eq, decide_eq_true_eq] at hcol
    exact ⟨(hev.scalars q.1 (mem_map_of_mem hq)).resolve_right hcol.2, .inl ⟨_, rfl⟩⟩
  have hsibs : SetsColumns schema.ownColumns (schema.siblings.foldl (dropSibling ev.scalars)
      ((ev.scalars.filter fun p => p.1 ≠ schema.revisionColumn ∧
        p.1 ∉ schema.sharedBaseBusinessColumns).map fun p => (p.1, lit p.2))) := by
    refine foldlRecOn _ _ hown fun own h sib hsib => ?_
    simp only [dropSibling]
    split_ifs
    · refine foldlRecOn _ _ h fun own h c hc => h.assign ?_ (.inr rfl)
      have hmem : c ∈ schema.siblings.flatMap (columns ·.fields) :=
        mem_flatMap.2 ⟨sib, hsib, (mem_filter.1 hc).1⟩
      simp only [ownColumns, mem_append]
      tauto
    · exact h
  simp only [ownSet]
  split_ifs
  · exact hsibs
  · exact hsibs.assign (idColumn_mem_ownColumns _) (.inl ⟨_, rfl⟩)

theorem ownSet_ne_nil (hev : WellFormed schema ev) : ownSet schema ev ≠ [] := by
  intro h
  have : (ownSet schema ev).get schema.idColumn = some (.lit (.str ev.ids.id)) := by
    simp [ownSet, hev.id]
  rw [h] at this
  cases this

/-- The operations of an event on one collection: the own ones unless the document is past the
event, those of the base in any case. -/
def segmentAfter (ev : Payload) (d : Doc) (c : ChildSchema) : List Value :=
  ((ev.baseChildren.get c.typeName).getD []).foldl (editOp c ev.ids.baseRevision true)
    (if storedRevision d docRevisionField ≤ ev.ids.revision then
      ((ev.children.get c.typeName).getD []).foldl (editOp c 0 false) (segment d c.segment)
    else segment d c.segment)

/-- The document after the pipeline of an event. -/
structure Projected (schema : TableSchema) (ev : Payload) (d d' : Doc) : Prop where
  revision : d'.get docRevisionField =
    some (.int (max (storedRevision d docRevisionField) ev.ids.revision))
  baseRevision : d'.get docBaseRevisionField =
    if CarriesBase (baseSet schema.toSchemaDecl ev) ev.ids then
      some (.int (max (storedRevision d docBaseRevisionField) ev.ids.baseRevision))
    else d.get docBaseRevisionField
  own : ∀ k e, (ownSet schema.toSchemaDecl ev).get k = some e → d'.get k =
    if storedRevision d docRevisionField ≤ ev.ids.revision then columnValue e else d.get k
  base : ∀ k e, (baseSet schema.toSchemaDecl ev).get k = some e → d'.get k =
    if CarriesBase (baseSet schema.toSchemaDecl ev) ev.ids ∧
        storedRevision d docBaseRevisionField ≤ ev.ids.baseRevision then columnValue e
    else d.get k
  segments : ∀ c ∈ schema.allChildren, d'.get c.segment = some (.arr (segmentAfter ev d c))
  other : ∀ k, k ∉ (ownSet schema.toSchemaDecl ev).keys →
    k ∉ (baseSet schema.toSchemaDecl ev).keys → k ∉ schema.allChildren.map ChildSchema.segment →
    k ≠ docRevisionField → k ≠ docBaseRevisionField → d'.get k = d.get k

variable {d : Doc}

theorem ownGuardedChildStages_run (hev : WellFormed schema ev) (hd : Projectable schema d) :
    ∃ d', runStages d (ownGuardedChildStages schema ev) = .ok d' ∧
      (∀ c ∈ schema.allChildren, HasSegment d' c.segment ∧ segment d' c.segment =
        if storedRevision d docRevisionField ≤ ev.ids.revision then
          ((ev.children.get c.typeName).getD []).foldl (editOp c 0 false) (segment d c.segment)
        else segment d c.segment) ∧
      ∀ k, k ∉ schema.allChildren.map ChildSchema.segment → d'.get k = d.get k := by
  -- the watermark the gate reads stays
  have hI : ∀ c ∈ schema.allChildren, ∀ (d1 : Doc) v,
      d1.get docRevisionField = d.get docRevisionField →
      (d1.put c.segment v).get docRevisionField = d.get docRevisionField := by
    intro c hc d1 v h
    have hne : c.segment ≠ docRevisionField := fun he =>
      (revision_not_key schema).2.2
        (he ▸ mem_map_of_mem hc)
    rw [get_put, if_neg hne, h]
  have hgate : ∀ (d1 : Doc) k e, d1.get docRevisionField = d.get docRevisionField →
      (cond (appliesAt docRevisionField ev.ids.revision) e (.field k)).eval d1 [] =
        if decide (storedRevision d docRevisionField ≤ ev.ids.revision) then e.eval d1 []
        else .ok (d1.get k) := by
    intro d1 k e h
    have hw : Watermarked d1 docRevisionField := by
      rw [Watermarked, h]
      exact hd.revision
    have hs : storedRevision d1 docRevisionField = storedRevision d docRevisionField := by
      rw [storedRevision, h, storedRevision]
    rw [eval_cond (eval_appliesAt (Int.natCast_nonneg _) hw), hs, eval_field]
  obtain ⟨d', hrun, hseg, hframe⟩ := runStages_childStages hI hgate hev.children rfl hd.segments
  refine ⟨d', hrun, fun c hc => ⟨(hseg c hc).1, (hseg c hc).2.trans ?_⟩, hframe⟩
  simp

theorem baseChildStages_run {groups : AssocMap String (List ChildPayload)}
    (hgroups : groups.keys.Nodup) (revision : ℕ)
    (hd : ∀ c ∈ schema.allChildren, HasSegment d c.segment) :
    ∃ d', runStages d (childStages schema groups revision true) = .ok d' ∧
      (∀ c ∈ schema.allChildren, HasSegment d' c.segment ∧ segment d' c.segment =
        ((groups.get c.typeName).getD []).foldl (editOp c revision true) (segment d c.segment)) ∧
      ∀ k, k ∉ schema.allChildren.map ChildSchema.segment → d'.get k = d.get k := by
  have hgate : ∀ (d : Doc) (k : String) (e : Expr), True →
      ((fun _ e => e) k e : Expr).eval d [] = if true then e.eval d [] else .ok (d.get k) :=
    fun _ _ _ _ => rfl
  obtain ⟨d', hrun, hseg, hframe⟩ := runStages_childStages
    (I := fun _ => True) (fun _ _ _ _ _ => trivial) hgate hgroups trivial hd
  refine ⟨d', ?_, hseg, hframe⟩
  simpa using hrun

theorem baseStages_run {set : SetStage} (ids : OutboxMeta) {cols : List String}
    (hset : SetsColumns cols set) (hcols : docBaseRevisionField ∉ cols)
    (hd : Watermarked d docBaseRevisionField) :
    ∃ d', runStages d (baseStages set ids) = .ok d' ∧
      d'.get docBaseRevisionField =
        (if CarriesBase set ids then
          some (.int (max (storedRevision d docBaseRevisionField) ids.baseRevision))
        else d.get docBaseRevisionField) ∧
      (∀ k e, set.get k = some e → d'.get k =
        if CarriesBase set ids ∧ storedRevision d docBaseRevisionField ≤ ids.baseRevision then
          columnValue e else d.get k) ∧
      ∀ k, k ∉ set.keys → k ≠ docBaseRevisionField → d'.get k = d.get k := by
  by_cases hpub : CarriesBase set ids
  · obtain ⟨d', happly, hmark, hval, hframe⟩ :=
      hset.guarded_apply ids.baseRevision hd hcols
    simp only [baseStages, hpub, if_true, true_and]
    exact ⟨d', runStages_cons happly, hmark, hval, hframe⟩
  · simp only [baseStages, hpub, if_false, false_and]
    exact ⟨d, rfl, rfl, fun _ _ _ => rfl, fun _ _ _ => rfl⟩

theorem segmentNormalizeStage_run (hd : ∀ c ∈ schema.allChildren, HasSegment d c.segment) :
    ∃ d', runStages d (if segmentNormalizeStage schema = [] then []
        else [segmentNormalizeStage schema]) = .ok d' ∧
      (∀ c ∈ schema.allChildren, d'.get c.segment = some (.arr (segment d c.segment))) ∧
      ∀ k, k ∉ schema.allChildren.map ChildSchema.segment → d'.get k = d.get k := by
  have heval : ∀ p ∈ segmentNormalizeStage schema, ∃ v, p.2.eval d [] = .ok v := by
    intro p hp
    obtain ⟨c, hc, rfl⟩ := mem_map.1 hp
    exact ⟨_, eval_storedArray (hd c hc)⟩
  have hget : ∀ c ∈ schema.allChildren,
      (segmentNormalizeStage schema).get c.segment = some (storedArray c) := by
    intro c hc
    have := get_ofKeys (schema.allChildren.map ChildSchema.segment)
      (fun k => ifNull (.field k) (.lit (.arr []))) c.segment
    rw [map_map, if_pos (mem_map_of_mem hc)] at this
    exact this
  have hnone : ∀ k, k ∉ schema.allChildren.map ChildSchema.segment →
      (segmentNormalizeStage schema).get k = none := by
    intro k hk
    rw [get_eq_none_iff, AssocMap.keys, segmentNormalizeStage, map_map]
    exact hk
  obtain ⟨d', happly⟩ := apply_ok heval
  refine ⟨d', ?_, fun c hc => ?_, fun k hk => get_of_apply happly (hnone k hk)⟩
  · split_ifs with h
    · rw [h] at happly
      exact happly
    · exact runStages_cons happly
  · have := eval_of_apply happly (hget c hc)
    rw [eval_storedArray (hd c hc)] at this
    exact (ok.inj this).symm

/-- **The pipeline of an event** goes through, and leaves this document. -/
theorem buildProjectionStages_run (hev : WellFormed schema ev) (hd : Projectable schema d) :
    ∃ d', runStages d (buildProjectionStages schema ev) = .ok d' ∧ Projected schema ev d d' := by
  have hrevKey := revision_not_key schema
  have hbaseKey := baseRevision_not_key schema
  have hsetOwn := setsColumns_ownSet hev
  have hsetBase := setsColumns_baseSet schema ev
  obtain ⟨d1, hrun1, hseg1, hframe1⟩ := ownGuardedChildStages_run hev hd
  obtain ⟨d2, hrun2, hseg2, hframe2⟩ := baseChildStages_run hev.baseChildren
    ev.ids.baseRevision fun c hc => (hseg1 c hc).1
  have hget2 : ∀ k, k ∉ schema.allChildren.map ChildSchema.segment → d2.get k = d.get k :=
    fun k hk => (hframe2 k hk).trans (hframe1 k hk)
  obtain ⟨d3, hrun3, hmark3, hval3, hframe3⟩ := baseStages_run ev.ids hsetBase
    hbaseKey.2.1 (d := d2) (by rw [Watermarked, hget2 _ hbaseKey.2.2]; exact hd.baseRevision)
  have hrev3 : d3.get docRevisionField = d.get docRevisionField := by
    rw [hframe3 _ (hsetBase.not_mem_keys hrevKey.2.1) (by decide), hget2 _ hrevKey.2.2]
  have hmarked3 : Watermarked d3 docRevisionField := by
    rw [Watermarked, hrev3]
    exact hd.revision
  obtain ⟨d4, happly4, hmark4, hval4, hframe4⟩ :=
    hsetOwn.guarded_apply ev.ids.revision hmarked3 hrevKey.1
  have hstored2 :
      storedRevision d2 docBaseRevisionField = storedRevision d docBaseRevisionField := by
    rw [storedRevision, hget2 _ hbaseKey.2.2, storedRevision]
  have hstored3 : storedRevision d3 docRevisionField = storedRevision d docRevisionField := by
    rw [storedRevision, hrev3, storedRevision]
  rw [hstored3] at hmark4 hval4
  rw [hstored2] at hmark3 hval3
  -- the columns leave the segments alone
  have hseg4 : ∀ c ∈ schema.allChildren, d4.get c.segment = d2.get c.segment := by
    intro c hc
    have hmem := mem_map_of_mem (f := ChildSchema.segment) hc
    rw [hframe4 _ (hsetOwn.not_mem_keys fun h => (schema.ownColumn_disjoint h).2 hmem)
        fun he => hrevKey.2.2 (he ▸ hmem),
      hframe3 _ (hsetBase.not_mem_keys fun h => schema.baseColumn_not_segment h hmem)
        fun he => hbaseKey.2.2 (he ▸ hmem)]
  have hhas4 : ∀ c ∈ schema.allChildren, HasSegment d4 c.segment := by
    intro c hc
    rw [HasSegment, hseg4 c hc]
    exact (hseg2 c hc).1
  obtain ⟨d5, hrun5, hseg5, hframe5⟩ := segmentNormalizeStage_run hhas4
  refine ⟨d5, ?_, ?_, ?_, fun k e he => ?_, fun k e he => ?_, fun c hc => ?_,
    fun k hown hbase hseg hne hne' => ?_⟩
  · have hrun4 : runStages d3 (if ownSet schema ev = [] then [] else
        [guardedSetStage docRevisionField (ownSet schema ev) ev.ids.revision]) = .ok d4 := by
      rw [if_neg (ownSet_ne_nil hev)]
      exact runStages_cons happly4
    simp only [buildProjectionStages, append_assoc]
    rw [runStages_append hrun1, runStages_append hrun2, runStages_append hrun3,
      runStages_append hrun4, hrun5]
  · rw [hframe5 _ hrevKey.2.2, hmark4]
  · rw [hframe5 _ hbaseKey.2.2, hframe4 _ (hsetOwn.not_mem_keys hbaseKey.1) (by decide), hmark3,
      hget2 _ hbaseKey.2.2]
  · have hcol := (hsetOwn _ (mem_of_get he)).1
    have hdisj := schema.ownColumn_disjoint hcol
    rw [hframe5 _ hdisj.2, hval4 k e he, hframe3 k (hsetBase.not_mem_keys hdisj.1)
      (fun h => hbaseKey.1 (h ▸ hcol)), hget2 k hdisj.2]
  · have hcol := (hsetBase _ (mem_of_get he)).1
    have hown : k ∉ schema.ownColumns := fun h => (schema.ownColumn_disjoint h).1 hcol
    have hseg := schema.baseColumn_not_segment hcol
    rw [hframe5 _ hseg, hframe4 k (hsetOwn.not_mem_keys hown) (fun h => hrevKey.2.1 (h ▸ hcol)),
      hval3 k e he, hget2 k hseg]
  · rw [hseg5 c hc, segment, hseg4 c hc, ← segment, (hseg2 c hc).2, (hseg1 c hc).2]
    rfl
  · rw [hframe5 k hseg, hframe4 k hown hne, hframe3 k hbase hne', hget2 k hseg]

end

/-! ### Payloads of the write engine -/

section

variable {α : Type} [PersistentItem α] {schema : TableSchema} {src : Entity α}
  {root : Option (AggregateRoot α)} {eventType : EventType} {now : Instant}
  {stamps : CascadeStamps} {rootFields : Fields} {ids : OutboxMeta}

theorem wellFormed_buildWritePayload (hid : ids.id ≠ "")
    (hfields : ∀ k ∈ rootFields.keys, k ∈ schema.ownColumns)
    (hroot : ∀ ar ∈ root, ar.aggregates.keys.Nodup) :
    WellFormed schema
      (buildWritePayload schema src root eventType now stamps rootFields ids) := by
  refine ⟨hid, fun k hk => ?_, keys_childrenBlocks_nodup _ _ hroot,
    keys_childrenBlocks_nodup _ _ hroot⟩
  simp only [buildWritePayload, mem_keys_setAll] at hk
  rcases hk with (hk | hk) | hk
  · -- the root statement and the siblings
    left
    revert hk
    refine foldlRecOn (motive := fun m => k ∈ AssocMap.keys m → k ∈ schema.ownColumns) _ _
      (fun hk => hfields k (by simpa using hk)) fun out ih sib hsib hk => ?_
    rcases mem_keys_setAll.1 hk with hk | hk
    · exact ih hk
    · have hmem : k ∈ schema.siblings.flatMap (columns ·.fields) :=
        mem_flatMap.2 ⟨sib, hsib, by simpa using hk⟩
      simp only [ownColumns, mem_append]
      tauto
  · -- the shared base and the link to it
    cases hs : schema.sharedBase with
    | none => simp [sharedBaseScalars, hs] at hk
    | some link =>
      simp only [sharedBaseScalars, hs] at hk
      split_ifs at hk with hbase hpk
      · cases hk
      · exact .inr (by simpa [sharedBaseBusinessColumns, hs] using hk)
      · rw [AssocMap.keys_append, mem_append, keys_syncFields] at hk
        rcases hk with hk | hk
        · exact .inr (by simpa [sharedBaseBusinessColumns, hs] using hk)
        · obtain rfl : k = link.parentIDColumn := by simpa using hk
          exact .inl (parentIDColumn_mem_ownColumns hs (by simpa using hpk))
  · have hk := managedTimestamps_keys hk
    simp only [ownColumns, mem_append] at hk ⊢
    tauto

end

end Omnicore.Query
