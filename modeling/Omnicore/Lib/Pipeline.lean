import Omnicore.Lib.Expression

/-!
# Update pipelines

An update pipeline is a list of `$set` stages that assign expressions to fields.  All expressions of
a stage read the document as it was before the stage; a field whose expression yields no value is
removed, and an expression that fails makes the whole update fail.

## Main results

* `SetStage.apply_ok` : a stage all of whose expressions evaluate goes through.
* `SetStage.eval_of_apply`, `SetStage.get_of_apply` : the fields after a stage that goes through.
-/

/-- A `$set` stage: the expressions to assign. -/
abbrev SetStage := AssocMap String Expr

/-- Assign the expressions of a stage, each evaluated on the document before the stage. -/
def SetStage.apply (d : Doc) : SetStage → Except String Doc
  | [] => .ok d
  | (k, e) :: rest => do
    let v ← e.eval d []
    let d' ← SetStage.apply d rest
    return d'.put k v

variable {d d' : Doc} {stages : List SetStage} {stage : SetStage} {k : String}

/-- A stage whose expressions evaluate goes through. -/
theorem SetStage.apply_ok (h : ∀ p ∈ stage, ∃ v, p.2.eval d [] = .ok v) :
    ∃ d', stage.apply d = .ok d' := by
  induction stage with
  | nil => exact ⟨d, rfl⟩
  | cons p rest ih =>
    obtain ⟨v, hv⟩ := h p List.mem_cons_self
    obtain ⟨d', hd'⟩ := ih fun q hq => h q (List.mem_cons_of_mem _ hq)
    refine ⟨d'.put p.1 v, ?_⟩
    rw [SetStage.apply, hv, hd']
    rfl

/-- A stage of one field. -/
theorem SetStage.apply_singleton {e : Expr} {v : Option Value} (h : e.eval d [] = .ok v) :
    SetStage.apply d [(k, e)] = .ok (d.put k v) := by
  rw [SetStage.apply, h]
  rfl

/-- What a stage that goes through has assigned. -/
theorem SetStage.eval_of_apply (h : stage.apply d = .ok d') {e : Expr} (hk : stage.get k = some e) :
    e.eval d [] = .ok (d'.get k) := by
  induction stage generalizing d' with
  | nil => simp at hk
  | cons p rest ih =>
    simp only [SetStage.apply, Except.bind_ok, Except.pure_ok] at h
    obtain ⟨v, hv, d1, hd1, rfl⟩ := h
    rw [AssocMap.get_cons] at hk
    rw [AssocMap.get_put]
    split_ifs at hk ⊢ with hp
    · cases hk
      exact hv
    · exact ih hd1 hk

theorem SetStage.get_of_apply (h : stage.apply d = .ok d') (hk : stage.get k = none) :
    d'.get k = d.get k := by
  induction stage generalizing d' with
  | nil => cases h; rfl
  | cons p rest ih =>
    simp only [SetStage.apply, Except.bind_ok, Except.pure_ok] at h
    obtain ⟨v, -, d1, hd1, rfl⟩ := h
    rw [AssocMap.get_cons] at hk
    rw [AssocMap.get_put]
    split_ifs at hk ⊢ with hp
    exact ih hd1 hk

/-- Run the stages one after another. -/
def runStages (d : Doc) : List SetStage → Except String Doc
  | [] => .ok d
  | stage :: rest => do
    let d' ← stage.apply d
    runStages d' rest

@[simp] theorem runStages_nil : runStages d [] = .ok d := rfl

variable {rest : List SetStage}

theorem runStages_cons (h : stage.apply d = .ok d') :
    runStages d (stage :: rest) = runStages d' rest := by
  rw [runStages, h]
  rfl

theorem runStages_singleton (h : runStages d [stage] = .ok d') : stage.apply d = .ok d' := by
  rw [runStages, Except.bind_ok] at h
  obtain ⟨d1, hs, h⟩ := h
  cases h
  exact hs

theorem runStages_append (h : runStages d stages = .ok d') :
    runStages d (stages ++ rest) = runStages d' rest := by
  induction stages generalizing d with
  | nil => rw [runStages_nil] at h; cases h; rfl
  | cons stage stages ih =>
    rw [runStages, Except.bind_ok] at h
    obtain ⟨d1, hs, h⟩ := h
    rw [List.cons_append, runStages_cons hs, ih h]

/-- A pipeline that goes through does so part by part. -/
theorem runStages_append_ok {rest : List SetStage} (h : runStages d (stages ++ rest) = .ok d') :
    ∃ m, runStages d stages = .ok m ∧ runStages m rest = .ok d' := by
  induction stages generalizing d with
  | nil => exact ⟨d, rfl, h⟩
  | cons stage stages ih =>
    rw [List.cons_append, runStages, Except.bind_ok] at h
    obtain ⟨d1, hs, h⟩ := h
    obtain ⟨m, hm, hrest⟩ := ih h
    exact ⟨m, (runStages_cons hs).trans hm, hrest⟩

/-- What no stage sets stays. -/
theorem runStages_get (h : runStages d stages = .ok d')
    (hk : ∀ stage ∈ stages, stage.get k = none) : d'.get k = d.get k := by
  induction stages generalizing d with
  | nil => rw [runStages_nil] at h; cases h; rfl
  | cons stage stages ih =>
    rw [runStages, Except.bind_ok] at h
    obtain ⟨d1, hs, h⟩ := h
    rw [ih h fun st hst => hk st (List.mem_cons_of_mem _ hst),
      SetStage.get_of_apply hs (hk stage List.mem_cons_self)]
