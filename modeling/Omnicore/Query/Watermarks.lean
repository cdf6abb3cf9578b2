import Omnicore.Query.Delivery

/-!
# The watermarks of a document

Three kinds of pipelines are written to the document of a view: that of an event of its own
aggregate, the shared part of the event of another role, and a composed snapshot.  They arrive in
any order.  A document here is any document, well formed or not: a pipeline that fails changes
nothing, and one that goes through leaves the watermarks where they are or advances them.

## Main definitions

* `EmbeddingView`, `consultStages` : a view with its embeds, and the pipeline of a snapshot of it.
* `Pipeline` : what is written to a document.
* `Advances`, `Keeps` : how a watermark and a stored value may change.

## Main results

* `guardedSetStage_past`, `scopeStage_past` : a guarded stage the watermark is past changes nothing.
* `scopeStage_keeps` : a snapshot of the stored revision keeps what is there.
* `pipelines_guarded` : what holds along every sequence of pipelines.
-/

namespace Omnicore.Query

open Omnicore.Core Write List AssocMap Except Expr SetStage SchemaDecl Value

/-! ### Embeds -/

/-- The declared order of an embedded collection. -/
structure EmbedOrder where
  column : String
  desc : Bool := false

/-- A segment that mirrors the documents of another view. -/
structure EmbedDef where
  field : String
  many : Bool := false
  orderBy : String := ""
  orderDesc : Bool := false

/-- A view with its embeds, none of whose columns has a reserved name. -/
structure EmbeddingView extends ViewDefinition where
  embeds : List EmbedDef := []
  scope_not_reserved : ∀ k ∈ baseScope root, k ∉ reservedKeys

variable (view : EmbeddingView) (doc : Doc)

/-- The fields of the embeds. -/
def EmbeddingView.embedFields : List String := view.embeds.map (·.field)

/-- The declared orders, by field. -/
def embedOrders (embeds : List EmbedDef) : AssocMap String EmbedOrder :=
  embeds.foldl (fun out e => if e.many ∧ e.orderBy ≠ "" then
    AssocMap.set out e.field ⟨e.orderBy, e.orderDesc⟩ else out) []

/-- A collection in its declared order, ties by id. -/
def sortedSegment (e : Expr) : Option EmbedOrder → Expr
  | some ord => if ord.column = "" then e else .sortArray e [(ord.column, ord.desc), ("_id", false)]
  | none => e

/-- The id column of the rows a view is rooted at. -/
def ViewRoot.idColumn : ViewRoot → String
  | .entity schema => schema.idColumn
  | .sharedBase base _ => base.idColumn

/-- Embedded segments materialise with the document; later they belong to the ripple of their
source.  A document exists once it has its id column. -/
def embedCreateStage (embeds : Doc) (idColumn : String) (orders : AssocMap String EmbedOrder) :
    SetStage :=
  embeds.map fun p => (p.1, .cond (.not (.eq (.type (.field idColumn)) (.lit (.str "missing"))))
    (.field p.1) (sortedSegment (.lit p.2) (orders.get p.1)))

/-- The embedded segments of a composed document. -/
def embedData : Doc := (dataFields doc).filter fun p => p.1 ∈ view.embedFields

/-- The data of the own scope. -/
def ownData : Doc :=
  (dataFields doc).filter fun p => p.1 ∉ view.embedFields ∧ p.1 ∉ baseScope view.root

/-- The data of the scope of the shared base. -/
def baseData : Doc :=
  (dataFields doc).filter fun p => p.1 ∉ view.embedFields ∧ p.1 ∈ baseScope view.root

/-- The guarded pipeline of a composed document with embeds.  The stage of the embeds comes first:
the next one sets the id column it probes. -/
def consultStages : List SetStage :=
  (if embedData view doc = [] then [] else
    [embedCreateStage (embedData view doc) view.root.idColumn (embedOrders view.embeds)]) ++
  (if ownData view doc = [] then [] else
    [scopeStage docRevisionField (ownData view doc) (watermarkOf (doc.get docRevisionField))
      (ownShape view.root)]) ++
  (if baseData view doc = [] then [] else
    [scopeStage docBaseRevisionField (baseData view doc)
      (watermarkOf (doc.get docBaseRevisionField)) (baseShape view.root)])

/-! ### A revision against a stored watermark -/

section

variable {d d' : Doc} {watermark : String} {rev : ℤ} {set : SetStage} {k : String}

variable (stored : Option Value)

/-- A watermark below a revision, or none. -/
def Below (rev : ℤ) : Prop :=
  stored = none ∨ stored = some .null ∨ ∃ n < rev, stored = some (.int n)

/-- A revision below a watermark. -/
def Past (rev : ℤ) : Prop := isLT (some (.int rev)) stored = true

instance (stored : Option Value) (rev : ℤ) : Decidable (Past stored rev) :=
  inferInstanceAs (Decidable (_ = true))

/-- A watermark that stays or advances. -/
def Advances (before after : Option Value) : Prop :=
  after = before ∨ ∃ n : ℤ, after = some (.int n) ∧ Below before n

theorem Advances.trans {u v w : Option Value} (h : Advances u v) (h' : Advances v w) :
    Advances u w := by
  rcases h' with rfl | ⟨n, rfl, hn⟩
  · exact h
  rcases h with rfl | ⟨m, rfl, hm⟩
  · exact .inr ⟨n, rfl, hn⟩
  refine .inr ⟨n, rfl, ?_⟩
  rcases hn with hn | hn | ⟨m', hlt, hn⟩
  · cases hn
  · cases hn
  cases hn
  rcases hm with hm | hm | ⟨l, hl, hm⟩
  · exact .inl hm
  · exact .inr (.inl hm)
  · exact .inr (.inr ⟨l, hl.trans hlt, hm⟩)

/-- A stored watermark at a revision or past it. -/
def AtLeast (rev : ℤ) : Prop := ∃ n : ℤ, stored = some (.int n) ∧ rev ≤ n

theorem AtLeast.advance {u v : Option Value} {rev : ℤ} (h : AtLeast u rev) (ha : Advances u v) :
    AtLeast v rev := by
  obtain ⟨n, rfl, hn⟩ := h
  rcases ha with rfl | ⟨m, rfl, hm⟩
  · exact ⟨n, rfl, hn⟩
  · rcases hm with hm | hm | ⟨k, hk, hm⟩
    · cases hm
    · cases hm
    · cases hm
      exact ⟨m, rfl, hn.trans hk.le⟩

theorem Watermarked.advance (h : Watermarked d watermark)
    (ha : Advances (d.get watermark) (d'.get watermark)) : Watermarked d' watermark := by
  rcases ha with he | ⟨n, hn, -⟩
  · rw [Watermarked, he]
    exact h
  · exact .inr ⟨n, hn⟩

theorem Past.ne (h : Past (d.get watermark) rev) :
    ∃ v, d.get watermark = some v ∧ v ≠ .null ∧ v ≠ .int rev ∧
      isLT (some v) (some (.int rev)) = false := by
  cases hv : d.get watermark with
  | none => rw [hv] at h; cases h
  | some v =>
    rw [hv] at h
    cases v with
    | null => cases h
    | int n =>
      rw [Past, isLT_int, decide_eq_true_eq] at h
      refine ⟨_, rfl, by simp, ?_, ?_⟩
      · simpa using h.ne'
      · simpa using h.le
    | _ => exact ⟨_, rfl, by simp, by simp, rfl⟩

theorem below_or_past (rev : ℤ) :
    Below stored rev ∨ stored = some (.int rev) ∨ Past stored rev := by
  cases stored with
  | none => exact .inl (.inl rfl)
  | some v =>
    cases v with
    | null => exact .inl (.inr (.inl rfl))
    | int n =>
      rcases lt_trichotomy n rev with h | rfl | h
      · exact .inl (.inr (.inr ⟨n, h, rfl⟩))
      · exact .inr (.inl rfl)
      · exact .inr (.inr (by simpa [Past] using h))
    | _ => exact .inr (.inr rfl)

theorem eval_newerThan_below (hrev : 0 ≤ rev) (h : Below (d.get watermark) rev) :
    (newerThan watermark rev).eval d [] = .ok (some (.bool true)) := by
  rcases h with h | h | ⟨n, hn, h⟩
  · have hlt : (-1 : ℤ) < rev := by omega
    simp [eval_newerThan (.inl h), storedRevision, h, hlt, decide_true]
  · -- a null watermark counts as missing
    have hlt : (-1 : ℤ) < rev := by omega
    have hfield : (field watermark).eval d [] = .ok (some .null) := by
      rw [eval_field, h]
    have hstored : (ifNull (.field watermark) (.lit (.int (-1)))).eval d [] =
        .ok (some (.int (-1))) := (eval_ifNull_null hfield).trans (eval_lit _)
    rw [newerThan, eval_lt hstored (eval_lit _), isLT_int, decide_eq_true hlt]
  · simp [eval_newerThan (.inr ⟨n, h⟩), storedRevision, h, hn, decide_true]

theorem eval_newerThan_at (h : d.get watermark = some (.int rev)) :
    (newerThan watermark rev).eval d [] = .ok (some (.bool false)) := by
  simp [eval_newerThan (.inr ⟨rev, h⟩), storedRevision, h]

theorem eval_newerThan_past (h : Past (d.get watermark) rev) :
    (newerThan watermark rev).eval d [] = .ok (some (.bool false)) := by
  obtain ⟨v, hv, hnull, -, hlt⟩ := h.ne
  have hfield : (field watermark).eval d [] = .ok (some v) := by rw [eval_field, hv]
  rw [newerThan, eval_lt (eval_ifNull_some hfield hnull) (eval_lit _), hlt]

theorem eval_atRevision_at (h : d.get watermark = some (.int rev)) :
    (atRevision watermark rev).eval d [] = .ok (some (.bool true)) := by
  rw [atRevision, eval_eq (eval_field _) (eval_lit _), h, decide_eq_true rfl]

theorem eval_atRevision_past (h : Past (d.get watermark) rev) :
    (atRevision watermark rev).eval d [] = .ok (some (.bool false)) := by
  obtain ⟨v, hv, -, hne, -⟩ := h.ne
  have hne : some v ≠ some (.int rev) := by simpa using hne
  rw [atRevision, eval_eq (eval_field _) (eval_lit _), hv, decide_eq_false hne]

theorem eval_appliesAt_at (h : d.get watermark = some (.int rev)) :
    (appliesAt watermark rev).eval d [] = .ok (some (.bool true)) :=
  eval_or (eval_newerThan_at h) (eval_atRevision_at h)

theorem eval_appliesAt_below (hrev : 0 ≤ rev) (h : Below (d.get watermark) rev) :
    (appliesAt watermark rev).eval d [] = .ok (some (.bool true)) := by
  rw [appliesAt, atRevision, eval_or (eval_newerThan_below hrev h)
    (eval_eq (eval_field _) (eval_lit _)), Bool.true_or]

theorem eval_appliesAt_past (h : Past (d.get watermark) rev) :
    (appliesAt watermark rev).eval d [] = .ok (some (.bool false)) :=
  eval_or (eval_newerThan_past h) (eval_atRevision_past h)

theorem eval_advancedWatermark_past (h : Past (d.get watermark) rev) :
    (advancedWatermark watermark rev).eval d [] = .ok (d.get watermark) := by
  obtain ⟨v, hv, hnull, -, -⟩ := h.ne
  have hfield : (field watermark).eval d [] = .ok (some v) := by rw [eval_field, hv]
  rw [advancedWatermark, eval_cond (eval_newerThan_past h), if_neg Bool.false_ne_true,
    eval_ifNull_some hfield hnull, hv]

theorem eval_advancedWatermark_advances (hrev : 0 ≤ rev) :
    ∃ v, (advancedWatermark watermark rev).eval d [] = .ok v ∧ Advances (d.get watermark) v := by
  rcases below_or_past (d.get watermark) rev with h | h | h
  · rw [advancedWatermark, eval_cond (eval_newerThan_below hrev h), if_pos rfl]
    exact ⟨_, eval_lit _, .inr ⟨rev, rfl, h⟩⟩
  · have hfield : (field watermark).eval d [] = .ok (some (.int rev)) := by
      rw [eval_field, h]
    rw [advancedWatermark, eval_cond (eval_newerThan_at h), if_neg Bool.false_ne_true]
    exact ⟨_, eval_ifNull_some hfield (by simp), .inl h.symm⟩
  · exact ⟨_, eval_advancedWatermark_past h, .inl rfl⟩

/-! ### Guarded stages on any document -/

theorem get_guardedSetStage (hk : k ≠ watermark) :
    (guardedSetStage watermark set rev).get k =
      (set.get k).map fun e => .cond (appliesAt watermark rev) e (.field k) := by
  rw [guardedSetStage, get_set_ne _ _ (Ne.symm hk),
    get_map set fun k e => cond (appliesAt watermark rev) e (.field k)]

theorem guardedSetStage_advances (hrev : 0 ≤ rev)
    (h : (guardedSetStage watermark set rev).apply d = .ok d') :
    Advances (d.get watermark) (d'.get watermark) := by
  obtain ⟨v, hv, hadv⟩ := eval_advancedWatermark_advances hrev
  have he := eval_of_apply h (get_set_self ..)
  rw [hv] at he
  exact ok.inj he ▸ hadv

/-- **A guarded stage the watermark is past** changes nothing. -/
theorem guardedSetStage_past (hpast : Past (d.get watermark) rev)
    (h : (guardedSetStage watermark set rev).apply d = .ok d') (k : String) :
    d'.get k = d.get k := by
  by_cases hk : k = watermark
  · subst hk
    have he := eval_of_apply h (get_set_self ..)
    rw [eval_advancedWatermark_past hpast] at he
    exact (ok.inj he).symm
  · cases hset : set.get k with
    | none => exact get_of_apply h (by rw [get_guardedSetStage hk, hset]; rfl)
    | some e =>
      have he := eval_of_apply h ((get_guardedSetStage hk).trans (by rw [hset]; rfl))
      rw [eval_cond (eval_appliesAt_past hpast), if_neg Bool.false_ne_true] at he
      exact (ok.inj he).symm

theorem runStages_guardByRevision_past {stages : List SetStage}
    (hpast : Past (d.get docRevisionField) rev)
    (h : runStages d (stages.map (guardByRevision rev)) = .ok d') : d'.get k = d.get k := by
  induction stages generalizing d with
  | nil => cases h; rfl
  | cons stage stages ih =>
    rw [map_cons, runStages, bind_ok] at h
    obtain ⟨d1, happly, h⟩ := h
    have hsame : ∀ k, d1.get k = d.get k := by
      intro k
      have hget : get (guardByRevision rev stage) k = (get stage k).map fun e =>
          .cond (appliesAt docRevisionField rev) e (.field k) :=
        get_map stage
          (fun k e => cond (appliesAt docRevisionField rev) e (.field k)) k
      cases hset : get stage k with
      | none => exact get_of_apply happly (by rw [hget, hset]; rfl)
      | some e =>
        have he := eval_of_apply happly (hget.trans (by rw [hset]; rfl))
        rw [eval_cond (eval_appliesAt_past hpast), if_neg Bool.false_ne_true] at he
        exact (ok.inj he).symm
    rw [ih (by rw [hsame]; exact hpast) h, hsame]

end

/-! ### Guarded snapshots on any document -/

section

variable {d d' set : Doc} {watermark : String} {rev : ℤ} {shape : ScopeShape} {k : String}
  {v : Value}

/-- The fields of a document that has each field once are those of another. -/
def FieldsKept (e e' : Doc) : Prop := e.keys.Nodup → ∀ k v, e.get k = some v → e'.get k = some v

/-- An element that keeps its fields; a null element holds none. -/
inductive ElementKept : Value → Value → Prop
  | null (v : Value) : ElementKept .null v
  | doc {e e' : Doc} (h : FieldsKept e e') : ElementKept (.doc e) (.doc e')

/-- A value that stays, a sub-document that keeps its fields, or a collection each element of which
does. -/
inductive ValueKept : Value → Value → Prop
  | same (v : Value) : ValueKept v v
  | doc {e e' : Doc} (h : FieldsKept e e') : ValueKept (.doc e) (.doc e')
  | arr {xs ys : List Value} (h : List.Forall₂ ElementKept xs ys) : ValueKept (.arr xs) (.arr ys)

/-- What is stored is kept; what is missing may be filled in. -/
def Keeps (before after : Option Value) : Prop :=
  ∀ v, before = some v → ∃ v', after = some v' ∧ ValueKept v v'

theorem Keeps.of_eq {before after : Option Value} (h : after = before) : Keeps before after :=
  fun v hv => ⟨v, h.trans hv, .same v⟩

theorem fieldsKept_setAll (m e : Doc) : FieldsKept e (setAll m e) := by
  intro hnodup k v hv
  rw [get_setAll m hnodup, hv]
  rfl

theorem elementKept_of_mergeObjects {a b : Expr} {vars : Doc} {x : Value} {r : Option Value}
    (hb : b.eval d vars = .ok (some x)) (h : (mergeObjects a b).eval d vars = .ok r) :
    ∃ y, r = some y ∧ ElementKept x y := by
  change (a.eval d vars >>= fun u => b.eval d vars >>= _) = _ at h
  rw [bind_ok] at h
  obtain ⟨u, -, h⟩ := h
  rw [hb, bind_ok] at h
  obtain ⟨w, hw, h⟩ := h
  cases hw
  cases x with
  | null =>
    cases u with
    | none => exact ⟨_, (ok.inj h).symm, .null _⟩
    | some u =>
      cases u with
      | null | doc m => exact ⟨_, (ok.inj h).symm, .null _⟩
      | _ => cases h
  | doc e =>
    cases u with
    | none => exact ⟨_, (ok.inj h).symm, .doc fun _ _ _ hv => hv⟩
    | some u =>
      cases u with
      | null => exact ⟨_, (ok.inj h).symm, .doc fun _ _ _ hv => hv⟩
      | doc m => exact ⟨_, (ok.inj h).symm, .doc (fieldsKept_setAll m e)⟩
      | _ => cases h
  | _ =>
    cases u with
    | none => cases h
    | some u => cases u <;> cases h

theorem keeps_equalRevisionExpr {r : Option Value}
    (h : (equalRevisionExpr k v shape).eval d [] = .ok r) : Keeps (d.get k) r := by
  intro x hx
  have htype : ∀ t, (eq (.type (.field k)) (.lit (.str t))).eval d [] =
      .ok (some (.bool (typeName (some x) = t))) := by
    intro t
    rw [eval_eq (eval_type (eval_field k)) (eval_lit _), hx]
    simp
  have hfill : (cond (.eq (.type (.field k)) (.lit (.str "missing"))) (.lit v)
      (.field k)).eval d [] = .ok (some x) := by
    have hpresent : typeName (some x) ≠ "missing" := by
      cases x <;> simp [typeName]
    rw [eval_cond (htype _), eval_field, hx]
    simp [hpresent]
  cases hseg : shape.arraySegs.get k with
  | some pkCol =>
    simp only [equalRevisionExpr, hseg] at h
    rw [eval_cond (htype "array"), hfill] at h
    split_ifs at h with harr
    · obtain ⟨xs, rfl⟩ : ∃ xs, x = .arr xs := by cases x <;> simp_all [typeName]
      obtain ⟨ys, rfl, hys⟩ := forall₂_of_eval_map (by rw [eval_field, hx]) h
      refine ⟨_, rfl, .arr (hys.imp fun x y hxy => ?_)⟩
      obtain ⟨w, hw, rfl⟩ := hxy
      obtain ⟨z, rfl, hz⟩ := elementKept_of_mergeObjects (x := x)
        (by rw [eval_var, get_set_self]) hw
      exact hz
    · exact ⟨x, (ok.inj h).symm, .same x⟩
  | none =>
    simp only [equalRevisionExpr, hseg] at h
    split_ifs at h
    · rw [eval_cond (htype "object"), hfill] at h
      split_ifs at h with hobj
      · obtain ⟨y, rfl, hy⟩ := elementKept_of_mergeObjects (by rw [eval_field, hx]) h
        cases hy with
        | null => simp [typeName] at hobj
        | doc hkept => exact ⟨_, rfl, .doc hkept⟩
      · exact ⟨x, (ok.inj h).symm, .same x⟩
    · rw [hfill] at h
      exact ⟨x, (ok.inj h).symm, .same x⟩

variable (h : (scopeStage watermark set rev shape).apply d = .ok d')
include h

theorem scopeStage_advances (hrev : 0 < rev) (hset : set.get watermark = none) :
    Advances (d.get watermark) (d'.get watermark) := by
  obtain ⟨v, hv, hadv⟩ := eval_advancedWatermark_advances hrev.le
  have he := eval_of_apply h ((get_scopeStage_of_none hrev hset).trans (if_pos rfl))
  rw [hv] at he
  exact ok.inj he ▸ hadv

theorem scopeStage_frame (hrev : 0 < rev) (hk : set.get k = none)
    (hne : k ≠ watermark) : d'.get k = d.get k :=
  get_of_apply h ((get_scopeStage_of_none hrev hk).trans (if_neg (Ne.symm hne)))

/-- **A snapshot the watermark is past** changes nothing. -/
theorem scopeStage_past (hrev : 0 < rev) (hset : set.get watermark = none)
    (hpast : Past (d.get watermark) rev) (k : String) : d'.get k = d.get k := by
  by_cases hk : k = watermark
  · subst hk
    have he := eval_of_apply h ((get_scopeStage_of_none hrev hset).trans (if_pos rfl))
    rw [eval_advancedWatermark_past hpast] at he
    exact (ok.inj he).symm
  · cases hget : set.get k with
    | none => exact scopeStage_frame h hrev hget hk
    | some v =>
      have he := eval_of_apply h (get_scopeStage hrev hget)
      rw [eval_cond (eval_newerThan_past hpast), if_neg Bool.false_ne_true,
        eval_cond (eval_atRevision_past hpast), if_neg Bool.false_ne_true] at he
      exact (ok.inj he).symm

/-- **A snapshot of the stored revision** keeps what is there. -/
theorem scopeStage_keeps (hrev : 0 < rev) (hset : set.get watermark = none)
    (hat : d.get watermark = some (.int rev)) (k : String) : Keeps (d.get k) (d'.get k) := by
  by_cases hk : k = watermark
  · subst hk
    have he := eval_of_apply h ((get_scopeStage_of_none hrev hset).trans (if_pos rfl))
    have hfield : (field k).eval d [] = .ok (some (.int rev)) := by rw [eval_field, hat]
    rw [advancedWatermark, eval_cond (eval_newerThan_at hat), if_neg Bool.false_ne_true,
      eval_ifNull_some hfield (by simp)] at he
    exact .of_eq ((ok.inj he).symm.trans hat.symm)
  · cases hget : set.get k with
    | none => exact .of_eq (scopeStage_frame h hrev hget hk)
    | some v =>
      have he := eval_of_apply h (get_scopeStage hrev hget)
      rw [eval_cond (eval_newerThan_at hat), if_neg Bool.false_ne_true,
        eval_cond (eval_atRevision_at hat), if_pos rfl] at he
      exact keeps_equalRevisionExpr he

/-- A plain field of a scope after its stage: the value of the snapshot, or what was there. -/
theorem scopeStage_column (hshape : shape.IsScalar k) (hk : set.get k = some v) :
    d'.get k = some v ∨ d'.get k = d.get k := by
  by_cases hrev : rev ≤ 0
  · rw [scopeStage, if_pos hrev] at h
    have he := eval_of_apply h ((get_map set (fun _ v => lit v) k).trans (by rw [hk]; rfl))
    exact .inl (ok.inj he).symm
  · rw [not_le] at hrev
    have he := eval_of_apply h (get_scopeStage hrev hk)
    rcases below_or_past (d.get watermark) rev with hb | ha | hp
    · rw [eval_cond (eval_newerThan_below hrev.le hb), if_pos rfl] at he
      exact .inl (ok.inj he).symm
    · rw [eval_cond (eval_newerThan_at ha), if_neg Bool.false_ne_true,
        eval_cond (eval_atRevision_at ha), if_pos rfl, eval_equalRevisionExpr hshape] at he
      rw [← ok.inj he]
      cases d.get k with
      | none => exact .inl rfl
      | some x => exact .inr rfl
    · rw [eval_cond (eval_newerThan_past hp), if_neg Bool.false_ne_true,
        eval_cond (eval_atRevision_past hp), if_neg Bool.false_ne_true] at he
      exact .inr (ok.inj he).symm

theorem scopeStage_get_of_not_mem (hk : set.get k = none) (hne : k ≠ watermark) :
    d'.get k = d.get k := by
  by_cases hrev : rev ≤ 0
  · rw [scopeStage, if_pos hrev] at h
    exact get_of_apply h ((get_map set (fun _ v => lit v) k).trans (by rw [hk]; rfl))
  · exact scopeStage_frame h (not_le.1 hrev) hk hne

end

/-! ### Pipelines -/

/-- A pipeline written to the document of a view. -/
inductive Pipeline where
  /-- The event of the document's own aggregate. -/
  | payload (ev : Payload)
  /-- The event of another role of the same identity. -/
  | fanOut (ev : Payload)
  /-- A composed snapshot. -/
  | consult (doc : Doc)

open Pipeline

namespace Pipeline

/-- The stages of a pipeline; a base-rooted view is written by snapshots only. -/
def stages (view : EmbeddingView) : Pipeline → List SetStage
  | payload ev => match view.root with
    | .entity schema => buildProjectionStages schema ev
    | .sharedBase _ _ => []
  | fanOut ev => match view.root with
    | .entity schema => buildFanOutStages schema ev
    | .sharedBase _ _ => []
  | consult doc => consultStages view doc

/-- The document after a pipeline; one that fails changes nothing. -/
def write (view : EmbeddingView) (d : Doc) (p : Pipeline) : Doc :=
  match runStages d (p.stages view) with
  | .ok d' => d'
  | .error _ => d

/-- The revision of the own scope. -/
def revision : Pipeline → ℤ
  | payload ev | fanOut ev => ev.ids.revision
  | consult doc => watermarkOf (doc.get docRevisionField)

/-- The revision of the scope of the shared base. -/
def baseRevision : Pipeline → ℤ
  | payload ev | fanOut ev => ev.ids.baseRevision
  | consult doc => watermarkOf (doc.get docBaseRevisionField)

/-- A pipeline of the view: of an event whose columns and blocks are those of the schema, or of a
snapshot with positive watermarks. -/
def Fits (view : EmbeddingView) : Pipeline → Prop
  | payload ev => ∃ schema : TableSchema, view.root = .entity schema.toSchemaDecl ∧
      WellFormed schema ev ∧ OwnedBlocks schema.toSchemaDecl ev
  | fanOut ev => ∃ schema : TableSchema, view.root = .entity schema.toSchemaDecl ∧
      ∀ t ∈ ev.baseChildren.keys, ∃ c, schema.resolveAggregateChild t = some (c, true)
  | consult doc => (ownData view doc ≠ [] → 0 < watermarkOf (doc.get docRevisionField)) ∧
      (baseData view doc ≠ [] → 0 < watermarkOf (doc.get docBaseRevisionField))

end Pipeline

/-- A key of the own scope: neither of the shared base nor of an embed. -/
def IsOwnKey (k : String) : Prop :=
  k ∉ baseScope view.root ∧ k ≠ docBaseRevisionField ∧ k ∉ view.embedFields

/-- The segments a view declares for its own children. -/
def ownSegments : ViewRoot → List String
  | .entity schema => schema.children.map ChildSchema.segment
  | .sharedBase base _ => base.children.map ChildSchema.segment

/-- The columns of the shared base. -/
def ViewRoot.baseColumns : ViewRoot → List String
  | .entity schema => schema.sharedBaseBusinessColumns
  | .sharedBase _ _ => []

/-- A missing or null segment that becomes an empty collection. -/
def Materializes (before after : Option Value) : Prop :=
  (before = none ∨ before = some .null) ∧ after = some (.arr [])

/-- What a pipeline may do to a document. -/
structure Guarded (view : EmbeddingView) (p : Pipeline) (d d' : Doc) : Prop where
  revision : Advances (d.get docRevisionField) (d'.get docRevisionField)
  baseRevision : Advances (d.get docBaseRevisionField) (d'.get docBaseRevisionField)
  /-- The own scope of an older pipeline. -/
  own : Past (d.get docRevisionField) p.revision → ∀ k, IsOwnKey view k →
    d'.get k = d.get k ∨ (k ∈ ownSegments view.root ∧ Materializes (d.get k) (d'.get k))
  /-- The columns of the base in an older one. -/
  base : Past (d.get docBaseRevisionField) p.baseRevision → ∀ k ∈ view.root.baseColumns,
    k ∉ view.embedFields → d'.get k = d.get k
  /-- The own scope of a snapshot of the stored revision, and the embeds of a document that
  exists. -/
  fillsOwn : ∀ doc, p = .consult doc → d.get docRevisionField = some (.int p.revision) →
    ∀ k, k ∉ baseScope view.root → k ≠ docBaseRevisionField →
      (k ∈ view.embedFields → (d.get view.root.idColumn).isSome) → Keeps (d.get k) (d'.get k)
  fillsBase : ∀ doc, p = .consult doc → d.get docBaseRevisionField = some (.int p.baseRevision) →
    ∀ k ∈ baseScope view.root, k ∉ view.embedFields → Keeps (d.get k) (d'.get k)

/-! ### The pipelines of events -/

section

variable {schema : TableSchema} {ev : Payload} {d d' : Doc} {k : String}

theorem runStages_unless {c : Prop} [Decidable c] {stage : SetStage}
    (h : runStages d (if c then [] else [stage]) = .ok d') :
    (c ∧ d' = d) ∨ (¬c ∧ stage.apply d = .ok d') := by
  split_ifs at h with hc
  · exact .inl ⟨hc, (ok.inj h).symm⟩
  · exact .inr ⟨hc, runStages_singleton h⟩

theorem get_childStages {groups : AssocMap String (List ChildPayload)} {revision : ℕ}
    {guarded : Bool} (hk : k ∉ schema.allChildren.map ChildSchema.segment) :
    ∀ stage ∈ childStages schema groups revision guarded, get stage k = none := by
  intro stage hstage
  obtain ⟨⟨t, ops⟩, -, hstage⟩ := mem_flatMap.1 hstage
  cases hres : schema.resolveAggregateChild t with
  | none => simp [hres] at hstage
  | some r =>
    obtain ⟨c, fromBase⟩ := r
    simp only [hres] at hstage
    obtain ⟨op, -, hop⟩ := mem_filterMap.1 hstage
    obtain ⟨id, -, rfl⟩ := Option.map_eq_some_iff.1 hop
    have hne : c.segment ≠ k := fun he =>
      hk (he ▸ mem_map_of_mem (resolveAggregateChild_some hres).1)
    rw [get_cons, if_neg hne]
    rfl

theorem get_ownGuardedChildStages (hk : k ∉ schema.allChildren.map ChildSchema.segment) :
    ∀ stage ∈ ownGuardedChildStages schema ev, get stage k = none := by
  intro stage hstage
  obtain ⟨st, hst, rfl⟩ := mem_map.1 hstage
  have hget := get_map st
    (fun k e => cond (appliesAt docRevisionField ev.ids.revision) e (.field k)) k
  rw [get_childStages hk st hst] at hget
  exact hget

theorem baseStages_ok {set : SetStage} {ids : OutboxMeta}
    (h : runStages d (baseStages set ids) = .ok d') :
    Advances (d.get docBaseRevisionField) (d'.get docBaseRevisionField) ∧
      (Past (d.get docBaseRevisionField) ids.baseRevision → ∀ k, d'.get k = d.get k) ∧
      ∀ k, k ∉ set.keys → k ≠ docBaseRevisionField → d'.get k = d.get k := by
  rw [baseStages] at h
  split_ifs at h
  · have happly := runStages_singleton h
    refine ⟨guardedSetStage_advances (Int.natCast_nonneg _) happly,
      fun hpast => guardedSetStage_past hpast happly, fun k hk hne => ?_⟩
    refine get_of_apply happly ?_
    rw [get_guardedSetStage hne, (get_eq_none_iff ..).2 hk]
    rfl
  · cases h
    exact ⟨.inl rfl, fun _ _ => rfl, fun _ _ _ => rfl⟩

theorem segmentNormalizeStage_ok
    (h : runStages d (if segmentNormalizeStage schema = [] then []
      else [segmentNormalizeStage schema]) = .ok d') :
    d'.get k = d.get k ∨ (k ∈ schema.allChildren.map ChildSchema.segment ∧
      Materializes (d.get k) (d'.get k)) := by
  rcases runStages_unless h with ⟨-, rfl⟩ | ⟨-, happly⟩
  · exact .inl rfl
  have hget := get_ofKeys (schema.allChildren.map ChildSchema.segment)
    (fun k => ifNull (.field k) (.lit (.arr []))) k
  rw [map_map] at hget
  by_cases hk : k ∈ schema.allChildren.map ChildSchema.segment
  · rw [if_pos hk] at hget
    have he := eval_of_apply happly hget
    cases hv : d.get k with
    | none =>
      rw [eval_ifNull_none (by rw [eval_field, hv]), eval_lit] at he
      exact .inr ⟨hk, .inl rfl, (ok.inj he).symm⟩
    | some v =>
      by_cases hnull : v = .null
      · subst hnull
        rw [eval_ifNull_null (by rw [eval_field, hv]), eval_lit] at he
        exact .inr ⟨hk, .inr rfl, (ok.inj he).symm⟩
      · rw [eval_ifNull_some (by rw [eval_field, hv]) hnull] at he
        exact .inl (ok.inj he).symm
  · rw [if_neg hk] at hget
    exact .inl (get_of_apply happly hget)

/-- The parts of the pipeline of an event on any document: the blocks of children touch segments
only, and so does the normalisation. -/
theorem buildProjectionStages_ok (hev : WellFormed schema ev)
    (h : runStages d (buildProjectionStages schema ev) = .ok d') :
    ∃ d1 d2 d3 d4, runStages d (ownGuardedChildStages schema ev) = .ok d1 ∧
      runStages d1 (childStages schema ev.baseChildren ev.ids.baseRevision true) = .ok d2 ∧
      runStages d2 (baseStages (baseSet schema ev) ev.ids) = .ok d3 ∧
      (guardedSetStage docRevisionField (ownSet schema ev) ev.ids.revision).apply d3 = .ok d4 ∧
      runStages d4 (if segmentNormalizeStage schema = [] then [] else
        [segmentNormalizeStage schema]) = .ok d' ∧
      d3.get docRevisionField = d.get docRevisionField ∧
      (∀ k, k ∉ (ownSet schema ev).keys → k ≠ docRevisionField → d4.get k = d3.get k) ∧
      ∀ k, k ∉ schema.allChildren.map ChildSchema.segment →
        d2.get k = d.get k ∧ d'.get k = d4.get k := by
  have hrevKey := revision_not_key schema
  simp only [buildProjectionStages, append_assoc] at h
  obtain ⟨d1, h1, h⟩ := runStages_append_ok h
  obtain ⟨d2, h2, h⟩ := runStages_append_ok h
  obtain ⟨d3, h3, h⟩ := runStages_append_ok h
  obtain ⟨d4, h4, h5⟩ := runStages_append_ok h
  have happly4 := ((runStages_unless h4).resolve_left fun hnil => ownSet_ne_nil hev hnil.1).2
  have hframe2 : ∀ k, k ∉ schema.allChildren.map ChildSchema.segment → d2.get k = d.get k :=
    fun k hk => (runStages_get h2 (get_childStages hk)).trans
      (runStages_get h1 (get_ownGuardedChildStages hk))
  refine ⟨d1, d2, d3, d4, h1, h2, h3, happly4, h5, ?_, fun k hk hne => ?_, fun k hk =>
    ⟨hframe2 k hk, (segmentNormalizeStage_ok h5).resolve_right fun hseg => hk hseg.1⟩⟩
  · rw [(baseStages_ok h3).2.2 _ ((setsColumns_baseSet schema ev).not_mem_keys hrevKey.2.1)
      (by decide), hframe2 _ hrevKey.2.2]
  · refine get_of_apply happly4 ?_
    rw [get_guardedSetStage hne, (get_eq_none_iff ..).2 hk]
    rfl

theorem buildProjectionStages_guarded {view : EmbeddingView}
    (hroot : view.root = .entity schema) (hev : WellFormed schema ev)
    (hblocks : OwnedBlocks schema ev) (h : runStages d (buildProjectionStages schema ev) = .ok d') :
    Guarded view (.payload ev) d d' := by
  have hrevKey := revision_not_key schema
  have hbaseKey := baseRevision_not_key schema
  have hsetOwn := setsColumns_ownSet hev
  have hsetBase := setsColumns_baseSet schema ev
  obtain ⟨d1, d2, d3, d4, h1, h2, h3, h4, h5, hrev3, hframe4, hseg⟩ :=
    buildProjectionStages_ok hev h
  obtain ⟨hadv3, hpast3, hframe3⟩ := baseStages_ok h3
  obtain ⟨hbase2, hbase5⟩ := hseg _ hbaseKey.2.2
  refine ⟨?_, ?_, fun hpast k hk => ?_, fun hpast k hk _ => ?_, nofun, nofun⟩
  · rw [(hseg _ hrevKey.2.2).2, ← hrev3]
    exact guardedSetStage_advances (Int.natCast_nonneg _) h4
  · rw [hbase5, hframe4 _ (hsetOwn.not_mem_keys hbaseKey.1) (by decide), ← hbase2]
    exact hadv3
  · -- every stage of the own scope is behind the watermark the last of them would advance
    obtain ⟨hbase, hne, -⟩ := hk
    rw [hroot, baseScope, mem_append, not_or] at hbase
    have hsame4 : d4.get k = d.get k := by
      rw [guardedSetStage_past (by rw [hrev3]; exact hpast) h4,
        hframe3 k (hsetBase.not_mem_keys hbase.1) hne,
        runStages_get h2 (get_childStages_base hblocks.base hbase.2),
        runStages_guardByRevision_past hpast h1]
    rcases segmentNormalizeStage_ok h5 with hsame | ⟨hmem, hmat⟩
    · exact .inl (hsame.trans hsame4)
    · rw [hsame4] at hmat
      refine .inr ⟨?_, hmat⟩
      rw [hroot, ownSegments]
      rw [allChildren, map_append, mem_append] at hmem
      exact hmem.resolve_right hbase.2
  · rw [hroot] at hk
    have hcol : k ∈ schema.sharedBaseBusinessColumns := hk
    obtain ⟨hk2, hk5⟩ := hseg k (schema.baseColumn_not_segment hcol)
    rw [hk5, hframe4 k (hsetOwn.not_mem_keys fun hown =>
        (schema.ownColumn_disjoint hown).1 hcol) (fun he => hrevKey.2.1 (he ▸ hcol)),
      hpast3 (by rw [hbase2]; exact hpast), hk2]

theorem buildFanOutStages_guarded {view : EmbeddingView} (hroot : view.root = .entity schema)
    (hblocks : ∀ t ∈ ev.baseChildren.keys, ∃ c, schema.resolveAggregateChild t = some (c, true))
    (h : runStages d (buildFanOutStages schema ev) = .ok d') : Guarded view (.fanOut ev) d d' := by
  have hrevKey := revision_not_key schema
  have hbaseKey := baseRevision_not_key schema
  obtain ⟨d1, h1, h2⟩ := runStages_append_ok h
  obtain ⟨hadv1, hpast1, hframe1⟩ := baseStages_ok h1
  have hframe2 : ∀ k, k ∉ schema.baseChildren.map ChildSchema.segment → d'.get k = d1.get k :=
    fun k hk => runStages_get h2 (get_childStages_base hblocks hk)
  have hown : ∀ k, k ∉ schema.sharedBaseBusinessColumns →
      k ∉ schema.baseChildren.map ChildSchema.segment → k ≠ docBaseRevisionField →
      d'.get k = d.get k := fun k hcol hk hne => by
    rw [hframe2 k hk, hframe1 k ((setsColumns_fanOutSet _ _).not_mem_keys hcol) hne]
  refine ⟨.inl (hown _ hrevKey.2.1 (not_mem_baseSegments hrevKey.2.2) (by decide)), ?_,
    fun _ k hk => ?_, fun hpast k hk _ => ?_, nofun, nofun⟩
  · rw [hframe2 _ (not_mem_baseSegments hbaseKey.2.2)]
    exact hadv1
  · obtain ⟨hbase, hne, -⟩ := hk
    rw [hroot, baseScope, mem_append, not_or] at hbase
    exact .inl (hown k hbase.1 hbase.2 hne)
  · rw [hroot] at hk
    have hcol : k ∈ schema.sharedBaseBusinessColumns := hk
    rw [hframe2 k (not_mem_baseSegments (schema.baseColumn_not_segment hcol)), hpast1 hpast]

end

/-! ### The pipeline of a snapshot -/

section

variable {view : EmbeddingView} {doc d d' : Doc} {k : String}

theorem get_filter_dataFields (f : String → Bool) (doc : Doc) (k : String) :
    get ((dataFields doc).filter fun p => f p.1) k =
      if f k = true ∧ isData k = true then doc.get k else none := by
  rw [get_filter_key _ f]
  by_cases hf : f k = true
  · cases hk : isData k with
    | true => simp [hf, get_dataFields doc hk]
    | false => simp [hf, get_dataFields_of_not_data doc hk]
  · simp [hf]

theorem scope_ok {watermark : String} {set : Doc} {rev : ℤ} {shape : ScopeShape}
    (hpos : set ≠ [] → 0 < rev) (hset : set.get watermark = none)
    (h : runStages d (if set = [] then [] else [scopeStage watermark set rev shape]) = .ok d') :
    Advances (d.get watermark) (d'.get watermark) ∧
      (Past (d.get watermark) rev → ∀ k, d'.get k = d.get k) ∧
      (d.get watermark = some (.int rev) → ∀ k, Keeps (d.get k) (d'.get k)) ∧
      ∀ k, set.get k = none → k ≠ watermark → d'.get k = d.get k := by
  rcases runStages_unless h with ⟨-, rfl⟩ | ⟨hne, happly⟩
  · exact ⟨.inl rfl, fun _ _ => rfl, fun _ _ => .of_eq rfl, fun _ _ _ => rfl⟩
  · have hrev := hpos hne
    exact ⟨scopeStage_advances happly hrev hset,
      fun hpast => scopeStage_past happly hrev hset hpast,
      fun hat => scopeStage_keeps happly hrev hset hat,
      fun k hk hne => scopeStage_frame happly hrev hk hne⟩

theorem embed_ok {embeds : Doc} {idColumn : String} {orders : AssocMap String EmbedOrder}
    (h : runStages d (if embeds = [] then [] else [embedCreateStage embeds idColumn orders]) =
      .ok d') :
    ((d.get idColumn).isSome → ∀ k, d'.get k = d.get k) ∧
      ∀ k, embeds.get k = none → d'.get k = d.get k := by
  rcases runStages_unless h with ⟨-, rfl⟩ | ⟨-, happly⟩
  · exact ⟨fun _ _ => rfl, fun _ _ => rfl⟩
  have hget : ∀ k, AssocMap.get (embedCreateStage embeds idColumn orders) k =
      (embeds.get k).map fun v => .cond (.not (.eq (.type (.field idColumn))
        (.lit (.str "missing")))) (.field k) (sortedSegment (.lit v) (orders.get k)) :=
    fun k => get_map embeds (fun k v => cond (.not (.eq (.type (.field idColumn))
      (.lit (.str "missing")))) (.field k) (sortedSegment (.lit v) (orders.get k))) k
  have hframe : ∀ k, embeds.get k = none → d'.get k = d.get k := fun k hk =>
    get_of_apply happly (by rw [hget, hk]; rfl)
  refine ⟨fun hid k => ?_, hframe⟩
  cases hk : embeds.get k with
  | none => exact hframe k hk
  | some v =>
    obtain ⟨x, hx⟩ := Option.isSome_iff_exists.1 hid
    have hpresent : typeName (d.get idColumn) ≠ "missing" := by
      rw [hx]
      cases x <;> simp [typeName]
    have he := eval_of_apply happly ((hget k).trans (by rw [hk]; rfl))
    rw [eval_cond (eval_not (eval_eq (eval_type (eval_field _)) (eval_lit _))), eval_field] at he
    simpa [hpresent] using he.symm

theorem consultStages_guarded (hfits : (consult doc).Fits view)
    (h : runStages d (consultStages view doc) = .ok d') : Guarded view (.consult doc) d d' := by
  obtain ⟨d2, h2, h3⟩ := runStages_append_ok h
  obtain ⟨d1, h1, h2⟩ := runStages_append_ok h2
  have hmark : isData docRevisionField = false ∧ isData docBaseRevisionField = false := by decide
  have hembed : ∀ k, k ∉ view.embedFields ∨ isData k = false →
      (embedData view doc).get k = none := fun k hk => by
    rw [embedData, get_filter_dataFields fun k => decide (k ∈ view.embedFields)]
    rcases hk with hk | hk <;> simp [hk]
  have hown : ∀ k, k ∈ view.embedFields ∨ k ∈ baseScope view.root ∨ isData k = false →
      (ownData view doc).get k = none := fun k hk => by
    rw [ownData, get_filter_dataFields
      fun k => decide (k ∉ view.embedFields ∧ k ∉ baseScope view.root)]
    rcases hk with hk | hk | hk <;> simp [hk]
  have hbase : ∀ k, k ∈ view.embedFields ∨ k ∉ baseScope view.root ∨ isData k = false →
      (baseData view doc).get k = none := fun k hk => by
    rw [baseData, get_filter_dataFields
      fun k => decide (k ∉ view.embedFields ∧ k ∈ baseScope view.root)]
    rcases hk with hk | hk | hk <;> simp [hk]
  obtain ⟨hexists, hframe1⟩ := embed_ok h1
  obtain ⟨hadv2, hpast2, hat2, hframe2⟩ := scope_ok hfits.1 (hown _ (.inr (.inr hmark.1))) h2
  obtain ⟨hadv3, hpast3, hat3, hframe3⟩ := scope_ok hfits.2 (hbase _ (.inr (.inr hmark.2))) h3
  have hrev1 : d1.get docRevisionField = d.get docRevisionField :=
    hframe1 _ (hembed _ (.inr hmark.1))
  have hbase2 : d2.get docBaseRevisionField = d.get docBaseRevisionField :=
    (hframe2 _ (hown _ (.inr (.inr hmark.2))) (by decide)).trans
      (hframe1 _ (hembed _ (.inr hmark.2)))
  refine ⟨?_, hbase2 ▸ hadv3, fun hpast k hk => ?_, fun hpast k hk hne => ?_,
    fun _ _ hat k hk hne hid => ?_, fun _ _ hat k hk hne => ?_⟩
  · rw [hframe3 _ (hbase _ (.inr (.inr hmark.1))) (by decide), ← hrev1]
    exact hadv2
  · obtain ⟨hk, hne, hnot⟩ := hk
    left
    rw [hframe3 k (hbase k (.inr (.inl hk))) hne, hpast2 (by rw [hrev1]; exact hpast),
      hframe1 k (hembed k (.inl hnot))]
  · have hscope : k ∈ baseScope view.root := by
      cases hroot : view.root with
      | entity schema => rw [hroot] at hk; exact mem_append_left _ hk
      | sharedBase base roles => rw [hroot] at hk; cases hk
    have hrev : k ≠ docRevisionField := fun he =>
      view.scope_not_reserved k hscope (he ▸ by decide)
    rw [hpast3 (by rw [hbase2]; exact hpast), hframe2 k (hown k (.inr (.inl hscope))) hrev,
      hframe1 k (hembed k (.inl hne))]
  · have hsame3 : d'.get k = d2.get k := hframe3 k (hbase k (.inr (.inl hk))) hne
    have hsame1 : d1.get k = d.get k := by
      by_cases hmem : k ∈ view.embedFields
      · exact hexists (hid hmem) k
      · exact hframe1 k (hembed k (.inl hmem))
    rw [hsame3, ← hsame1]
    exact hat2 (hrev1.trans hat) k
  · have hrev : k ≠ docRevisionField := fun he => view.scope_not_reserved k hk (he ▸ by decide)
    have hsame2 : d2.get k = d.get k :=
      (hframe2 k (hown k (.inr (.inl hk))) hrev).trans (hframe1 k (hembed k (.inl hne)))
    rw [← hsame2]
    exact hat3 (hbase2.trans hat) k

end

/-! ### Sequences of pipelines -/

theorem Pipeline.write_guarded {view : EmbeddingView} {p : Pipeline} (hp : p.Fits view) (d : Doc) :
    Guarded view p d (p.write view d) := by
  rw [write]
  cases hrun : runStages d (p.stages view) with
  | error m =>
    exact ⟨.inl rfl, .inl rfl, fun _ _ _ => .inl rfl, fun _ _ _ _ => rfl,
      fun _ _ _ _ _ _ _ => .of_eq rfl, fun _ _ _ _ _ _ => .of_eq rfl⟩
  | ok d' =>
    cases p with
    | payload ev =>
      obtain ⟨schema, hroot, hev, hblocks⟩ := hp
      simp only [stages, hroot] at hrun
      exact buildProjectionStages_guarded hroot hev hblocks hrun
    | fanOut ev =>
      obtain ⟨schema, hroot, hblocks⟩ := hp
      simp only [stages, hroot] at hrun
      exact buildFanOutStages_guarded hroot hblocks hrun
    | consult doc => exact consultStages_guarded hp hrun

/-- The document after some pipelines. -/
def writeAll (d : Doc) (ps : List Pipeline) : Doc := ps.foldl (write view) d

theorem writeAll_advances {view : EmbeddingView} {ps : List Pipeline}
    (hps : ∀ p ∈ ps, p.Fits view) (d : Doc) :
    Advances (d.get docRevisionField) ((writeAll view d ps).get docRevisionField) ∧
      Advances (d.get docBaseRevisionField) ((writeAll view d ps).get docBaseRevisionField) := by
  induction ps generalizing d with
  | nil => exact ⟨.inl rfl, .inl rfl⟩
  | cons p ps ih =>
    have hstep := write_guarded (hps p mem_cons_self) d
    obtain ⟨hrev, hbase⟩ := ih (fun q hq => hps q (mem_cons_of_mem _ hq)) (p.write view d)
    exact ⟨hstep.revision.trans hrev, hstep.baseRevision.trans hbase⟩

/-- **Every sequence of pipelines**, in any order and on any document: the watermarks never go back
from one point of it to a later one, and every pipeline of it is guarded. -/
theorem pipelines_guarded (view : EmbeddingView) (d : Doc) (ps : List Pipeline)
    (hps : ∀ p ∈ ps, p.Fits view) :
    (∀ before between after, ps = before ++ between ++ after →
      Advances ((writeAll view d before).get docRevisionField)
        ((writeAll view d (before ++ between)).get docRevisionField) ∧
      Advances ((writeAll view d before).get docBaseRevisionField)
        ((writeAll view d (before ++ between)).get docBaseRevisionField)) ∧
    ∀ before p after, ps = before ++ p :: after →
      Guarded view p (writeAll view d before) (writeAll view d (before ++ [p])) := by
  constructor
  · rintro before between after rfl
    have hfits : ∀ p ∈ between, p.Fits view := fun p hp => hps p (by simp [hp])
    simp only [writeAll, foldl_append]
    exact writeAll_advances hfits _
  · rintro before p after rfl
    simp only [writeAll, foldl_append]
    exact write_guarded (hps p (by simp)) _

/-- The customers' view. -/
def customerView : EmbeddingView where
  root := .entity customers.toSchemaDecl
  scope_not_reserved := by decide

/-- An event of a customer without children. -/
def customerEvent (revision : ℕ) : Payload where
  scalars := [("name", .str "Ann")]
  ids := { id := "c", revision }
  children := []
  baseChildren := []

theorem customerEvent_fits (revision : ℕ) :
    (payload (customerEvent revision)).Fits customerView := by
  refine ⟨customers, rfl, ⟨by simp [customerEvent], ?_, .nil, .nil⟩, nofun, nofun⟩
  intro k hk
  obtain rfl : k = "name" := by simpa [customerEvent, AssocMap.keys] using hk
  exact .inl (by decide)

/-- The view of the students, a role of a person. -/
def studentView : EmbeddingView where
  root := .entity student
  scope_not_reserved := by decide

/-- An event of a student. -/
def studentEvent (revision baseRevision : ℕ) : Payload where
  scalars := [("course", .str "Go"), ("name", .str "Ann")]
  ids := { id := "s0", revision, baseRevision }
  children := []
  baseChildren := []

/-- A composition of a student. -/
def studentDoc : Doc :=
  [("id", .str "s0"), ("name", .str "Ann"), ("_revision", .int 3), ("_base_revision", .int 4)]

/-- An update, the event of another role, a snapshot, and the update before. -/
def studentPipelines : List Pipeline :=
  [payload (studentEvent 3 2), fanOut (studentEvent 1 4), consult studentDoc,
    payload (studentEvent 2 3)]

theorem studentEvent_fits (r b : ℕ) : (payload (studentEvent r b)).Fits studentView ∧
    (fanOut (studentEvent r b)).Fits studentView := by
  have hroot : studentView.root = .entity (TableSchema.mk student).toSchemaDecl := rfl
  have hnone : ∀ t ∈ (studentEvent r b).children.keys, False := by simp [studentEvent]
  refine ⟨⟨_, hroot, ⟨by simp [studentEvent], ?_, .nil, .nil⟩, fun t ht => (hnone t ht).elim,
    fun t ht => (hnone t ht).elim⟩, _, hroot, fun t ht => (hnone t ht).elim⟩
  simp only [studentEvent, AssocMap.keys]
  decide

theorem studentPipelines_fit : ∀ p ∈ studentPipelines, p.Fits studentView := by
  have hdoc : (consult studentDoc).Fits studentView := by
    simp only [Fits]
    decide
  simp [studentPipelines, studentEvent_fits, hdoc]

/-- The document of the student after some of them. -/
def studentAfter (n : ℕ) : Doc :=
  writeAll studentView [("_id", .str "s0")] (studentPipelines.take n)

/-- The event of another role, a snapshot, and an update that arrives after the next one. -/
theorem late_update_guarded :
    Guarded studentView (fanOut (studentEvent 1 4)) (studentAfter 1) (studentAfter 2) ∧
      Guarded studentView (consult studentDoc) (studentAfter 2) (studentAfter 3) ∧
      Guarded studentView (payload (studentEvent 2 3)) (studentAfter 3) (studentAfter 4) := by
  have h := (pipelines_guarded studentView [("_id", .str "s0")] studentPipelines
    studentPipelines_fit).2
  exact ⟨h [_] _ [_, _] rfl, h [_, _] _ [_] rfl, h [_, _, _] _ [] rfl⟩

/-- A customer whose addresses are null. -/
def nullAddresses : Doc := [("_id", .str "c"), ("_revision", .int 3), ("addresses", .null)]

/-- An older event makes a null segment an empty collection. -/
theorem null_segment_normalized :
    (payload (customerEvent 2)).Fits customerView ∧
      Past (nullAddresses.get docRevisionField) (payload (customerEvent 2)).revision ∧
      "addresses" ∈ ownSegments customerView.root ∧ nullAddresses.get "addresses" = some .null ∧
      ((payload (customerEvent 2)).write customerView nullAddresses).get "addresses" =
        some (.arr []) := by
  refine ⟨customerEvent_fits 2, ?_⟩
  decide

end Omnicore.Query
