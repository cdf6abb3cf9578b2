import Omnicore.Lib.Pipeline
import Omnicore.Query.Composer

/-!
# Guarded writes of composed documents

A composed document is a snapshot: it is written as a pipeline that compares its watermark with the
stored one.  A newer snapshot overwrites, one of the stored revision only fills in what the stored
document lacks, and an older one changes nothing.

## Main results

* `scopeStage_newer`, `scopeStage_equal`, `scopeStage_older` : the fields after a guarded stage.
-/

namespace Omnicore.Query

open Omnicore.Core AssocMap Expr

/-- How the fill of the equal revision descends into structured fields: the id column of each array
segment, and the segments that are sub-documents. -/
structure ScopeShape where
  arraySegs : AssocMap String String := []
  objectSegs : List String := []

/-- The fill of one field at the equal revision: stored data wins, at the granularity the shape of
the field allows. -/
def equalRevisionExpr (col : String) (v : Value) (shape : ScopeShape) : Expr :=
  let isType (t : String) : Expr := .eq (.type (.field col)) (.lit (.str t))
  let fillIfMissing : Expr := .cond (isType "missing") (.lit v) (.field col)
  match shape.arraySegs.get col with
  | some pkCol =>
    -- the fresh element of the stored one's id, an empty document when there is none
    let matched : Expr := .ifNull
      (.arrayElemAt (.filter (.lit v) "fresh"
        (.eq (.varPath "fresh" pkCol) (.varPath "stored" pkCol))) 0) (.lit (.doc []))
    .cond (isType "array") (.map (.field col) "stored" (.mergeObjects matched (.var "stored")))
      fillIfMissing
  | none =>
    if col ∈ shape.objectSegs then
      .cond (isType "object") (.mergeObjects (.lit v) (.field col)) fillIfMissing
    else fillIfMissing

variable (watermark : String) (rev : ℤ)

/-- The stored watermark is below a revision. -/
def newerThan : Expr := .lt (.ifNull (.field watermark) (.lit (.int (-1)))) (.lit (.int rev))

/-- The stored watermark is a revision. -/
def atRevision : Expr := .eq (.field watermark) (.lit (.int rev))

/-- The watermark after a guarded stage: it only advances. -/
def advancedWatermark : Expr :=
  .cond (newerThan watermark rev) (.lit (.int rev))
    (.ifNull (.field watermark) (.lit (.int rev)))

/-- One scope behind its watermark; a scope composed without one is written unguarded. -/
def scopeStage (set : Doc) (rev : ℤ) (shape : ScopeShape) : SetStage :=
  if rev ≤ 0 then set.map fun p => (p.1, .lit p.2)
  else
    (set.map fun p => (p.1, .cond (newerThan watermark rev) (.lit p.2)
      (.cond (atRevision watermark rev) (equalRevisionExpr p.1 p.2 shape) (.field p.1)))) ++
    [(watermark, advancedWatermark watermark rev)]

/-- The revision a watermark holds. -/
def watermarkOf : Option Value → ℤ
  | some (.int n) => n
  | _ => 0

/-- The array segments of some child collections. -/
def arraySegs (children : List ChildSchema) : AssocMap String String :=
  children.map fun c => (c.segment, c.idColumn)

/-- The keys of the shared-base scope of a view; a base-rooted document is one own scope. -/
def baseScope : ViewRoot → List String
  | .entity schema => schema.sharedBaseBusinessColumns ++ schema.baseChildren.map (·.segment)
  | .sharedBase _ _ => []

/-- The shape of the own scope. -/
def ownShape : ViewRoot → ScopeShape
  | .entity schema => { arraySegs := arraySegs schema.children }
  | .sharedBase base roles =>
    { arraySegs := arraySegs base.children, objectSegs := roles.map (·.segment) }

/-- The shape of the shared-base scope. -/
def baseShape : ViewRoot → ScopeShape
  | .entity schema => { arraySegs := arraySegs schema.baseChildren }
  | .sharedBase _ _ => {}

/-- Watermarks travel in their guards, never as data. -/
def isData (k : String) : Bool := k ≠ "_id" && k ≠ docRevisionField && k ≠ docBaseRevisionField

/-- The data of a composed document. -/
def dataFields (doc : Doc) : Doc := doc.filter fun p => isData p.1

/-- The guarded pipeline of a composed document: its own scope, then that of the shared base. -/
def consultGuardedStages (view : ViewDefinition) (doc : Doc) : List SetStage :=
  let own := (dataFields doc).filter fun p => p.1 ∉ baseScope view.root
  let base := (dataFields doc).filter fun p => p.1 ∈ baseScope view.root
  (if own = [] then [] else
    [scopeStage docRevisionField own (watermarkOf (doc.get docRevisionField))
      (ownShape view.root)]) ++
  (if base = [] then [] else
    [scopeStage docBaseRevisionField base (watermarkOf (doc.get docBaseRevisionField))
      (baseShape view.root)])

theorem get_dataFields {k : String} (d : Doc) (hk : isData k = true) :
    (dataFields d).get k = d.get k := by
  induction d with
  | nil => rfl
  | cons p d ih =>
    rw [dataFields, List.filter_cons, ← dataFields]
    split_ifs with hp
    · rw [get_cons, get_cons, ih]
    · have : p.1 ≠ k := fun he => hp (he ▸ hk)
      rw [ih, get_cons, if_neg this]

theorem get_dataFields_of_not_data {k : String} (d : Doc) (hk : isData k = false) :
    (dataFields d).get k = none := by
  rw [get_eq_none_iff, keys, List.mem_map]
  rintro ⟨p, hp, rfl⟩
  exact absurd (List.mem_filter.1 hp).2 (by simp [hk])

/-! ### The store -/

/-- Run a pipeline on the document of an id.  A missing document is created from its id when the
update is an upsert, and left missing otherwise. -/
def applyProjection (stored : Option Doc) (id : String) (stages : List SetStage) (upsert : Bool) :
    Except String (Option Doc) :=
  match stored with
  | some d => some <$> runStages d stages
  | none => if upsert then some <$> runStages [("_id", .str id)] stages else .ok none

/-- Write a composed document. -/
def applyConsultUpsert (view : ViewDefinition) (stored : Option Doc) (id : String) (doc : Doc) :
    Except String (Option Doc) :=
  if consultGuardedStages view doc = [] then .ok stored
  else applyProjection stored id (consultGuardedStages view doc) true

theorem applyProjection_ok {stored doc' : Option Doc} {id : String} {stages : List SetStage}
    {upsert : Bool} (h : applyProjection stored id stages upsert = .ok doc') :
    (stored = none ∧ upsert = false ∧ doc' = none) ∨
      (stored = none → upsert = true) ∧
        ∃ d', doc' = some d' ∧ runStages (stored.getD [("_id", .str id)]) stages = .ok d' := by
  have hrun : ∀ d, some <$> runStages d stages = .ok doc' →
      ∃ d', doc' = some d' ∧ runStages d stages = .ok d' := fun d hd => by
    cases hr : runStages d stages with
    | error m => rw [hr] at hd; cases hd
    | ok d' => rw [hr] at hd; cases hd; exact ⟨d', rfl, rfl⟩
  cases stored with
  | none =>
    cases upsert with
    | false => exact .inl ⟨rfl, rfl, (Except.ok.inj h).symm⟩
    | true => exact .inr ⟨fun _ => rfl, hrun _ h⟩
  | some d => exact .inr ⟨nofun, hrun d h⟩

/-! ### What a guarded stage does -/

section

variable {watermark : String} {set d d' : Doc} {rev : ℤ} {shape : ScopeShape} {k : String}
  {v : Value}

/-- A field written without structure: neither an array nor a sub-document segment. -/
def ScopeShape.IsScalar (shape : ScopeShape) (k : String) : Prop :=
  shape.arraySegs.get k = none ∧ k ∉ shape.objectSegs

theorem get_scopeStage (hrev : 0 < rev) (hk : set.get k = some v) :
    (scopeStage watermark set rev shape).get k =
      some (.cond (newerThan watermark rev) (.lit v)
        (.cond (atRevision watermark rev) (equalRevisionExpr k v shape) (.field k))) := by
  rw [scopeStage, if_neg (by omega), get_append,
    get_map set fun k v => cond (newerThan watermark rev) (.lit v)
      (.cond (atRevision watermark rev) (equalRevisionExpr k v shape) (.field k)), hk]
  rfl

theorem get_scopeStage_of_none (hrev : 0 < rev) (hk : set.get k = none) :
    (scopeStage watermark set rev shape).get k =
      if watermark = k then some (advancedWatermark watermark rev) else none := by
  rw [scopeStage, if_neg (by omega), get_append,
    get_map set fun k v => cond (newerThan watermark rev) (.lit v)
      (.cond (atRevision watermark rev) (equalRevisionExpr k v shape) (.field k)), hk]
  simp [get_cons]

/-- The watermark of a stored document is missing or a revision. -/
def Watermarked (d : Doc) (watermark : String) : Prop :=
  d.get watermark = none ∨ ∃ n : ℤ, d.get watermark = some (.int n)

/-- The stored revision, below every other while the watermark is missing. -/
def storedRevision (d : Doc) (watermark : String) : ℤ :=
  match d.get watermark with
  | some (.int n) => n
  | _ => -1

theorem eval_ifNull_watermark (hw : Watermarked d watermark) :
    (ifNull (.field watermark) (.lit (.int (-1)))).eval d [] =
      .ok (some (.int (storedRevision d watermark))) := by
  rw [storedRevision]
  rcases hw with h | ⟨n, h⟩
  · rw [eval_ifNull_none (by rw [eval_field, h]), h, eval_lit]
  · rw [eval_ifNull_some (by rw [eval_field, h]) (by simp), h]

theorem eval_newerThan (hw : Watermarked d watermark) :
    (newerThan watermark rev).eval d [] =
      .ok (some (.bool (storedRevision d watermark < rev))) := by
  rw [newerThan, eval_lt (eval_ifNull_watermark hw) (eval_lit _), Value.isLT_int]

theorem eval_atRevision (hrev : 0 ≤ rev) (hw : Watermarked d watermark) :
    (atRevision watermark rev).eval d [] =
      .ok (some (.bool (storedRevision d watermark = rev))) := by
  rw [atRevision, eval_eq (eval_field _) (eval_lit _), storedRevision]
  rcases hw with h | ⟨n, h⟩ <;> rw [h]
  · have : (-1 : ℤ) ≠ rev := by omega
    simp [this]
  · simp

theorem eval_advancedWatermark (hrev : 0 ≤ rev) (hw : Watermarked d watermark) :
    (advancedWatermark watermark rev).eval d [] =
      .ok (some (.int (max (storedRevision d watermark) rev))) := by
  rw [advancedWatermark, eval_cond (eval_newerThan hw)]
  split_ifs with h
  · rw [decide_eq_true_eq] at h
    rw [eval_lit, max_eq_right h.le]
  · rw [decide_eq_true_eq] at h
    rw [max_eq_left (by omega)]
    rw [storedRevision] at h ⊢
    rcases hw with hnone | ⟨n, hsome⟩
    · simp only [hnone] at h
      omega
    · rw [eval_ifNull_some (by rw [eval_field, hsome]) (by simp), hsome]

theorem eval_equalRevisionExpr (hk : shape.IsScalar k) :
    (equalRevisionExpr k v shape).eval d [] = .ok ((d.get k).or (some v)) := by
  simp only [equalRevisionExpr, hk.1, hk.2, if_false]
  rw [eval_cond (eval_eq (eval_type (eval_field k)) (eval_lit _))]
  cases h : d.get k with
  | none => simp [Value.typeName]
  | some x => cases x <;> simp [Value.typeName, h]

variable (hrev : 0 < rev) (hw : Watermarked d watermark)
  (h : (scopeStage watermark set rev shape).apply d = .ok d')
include hrev hw h

theorem scopeStage_watermark (hset : set.get watermark = none) :
    d'.get watermark = some (.int (max (storedRevision d watermark) rev)) := by
  have he := SetStage.eval_of_apply h ((get_scopeStage_of_none hrev hset).trans (if_pos rfl))
  rw [eval_advancedWatermark hrev.le hw] at he
  exact (Except.ok.inj he).symm

theorem scopeStage_newer (hlt : storedRevision d watermark < rev) (hk : set.get k = some v) :
    d'.get k = some v := by
  have he := SetStage.eval_of_apply h (get_scopeStage hrev hk)
  rw [eval_cond (eval_newerThan hw)] at he
  simpa [hlt] using he.symm

theorem scopeStage_equal (heq : storedRevision d watermark = rev) (hshape : shape.IsScalar k)
    (hk : set.get k = some v) : d'.get k = (d.get k).or (some v) := by
  have he := SetStage.eval_of_apply h (get_scopeStage hrev hk)
  rw [eval_cond (eval_newerThan hw), eval_cond (eval_atRevision hrev.le hw),
    eval_equalRevisionExpr hshape] at he
  simpa [heq] using he.symm

theorem scopeStage_older (hlt : rev < storedRevision d watermark) (hk : set.get k = some v) :
    d'.get k = d.get k := by
  have he := SetStage.eval_of_apply h (get_scopeStage hrev hk)
  rw [eval_cond (eval_newerThan hw), eval_cond (eval_atRevision hrev.le hw)] at he
  simpa [hlt.le.not_gt, hlt.ne'] using he.symm

end

end Omnicore.Query
