import Mathlib.Data.List.Defs
import Mathlib.Tactic.Common
import Omnicore.Lib.Machine

/-!
# Embeds by reference

A view document may hold a copy of the source document one of its columns names, and its child
elements copies of the documents theirs name.  Two consumers write them.  The projection composes a
document, reading the sources, and writes it later behind its revision; a ripple writes a source
document, scans for what references it, and edits that.  A root segment is written by the projection
only when it creates the document, and is checked against the source once more after each write.

## Main definitions

* `Sources` : the source documents, and the ripples at work for them.
* `oneMachine`, `inChildMachine` : the writers of a root segment and of the enrichments of an array.

## Main results

* `one_linked_iff`, `inChild_enriched_iff` : a copy is current, or the step that makes it so is to
  come, exactly as long as no write lands that read its source too early.
-/

namespace Omnicore.Query.Embed

open Option Function Machine

variable {ι α β : Type} [DecidableEq ι]

/-- How far a ripple is, with the document it carries; none is a removal. -/
inductive RippleStage (α : Type) where
  | scan (after : Option α)
  | edit (after : Option α)

/-- The source documents.  The events of one id are serialized: it has one ripple at a time. -/
structure Sources (ι α : Type) where
  docs : ι → Option α := fun _ => none
  ripples : ι → Option (RippleStage α) := fun _ => none

open Sources

namespace Sources

/-- A source event: the document is stored, and the ripple carries what was decoded. -/
def write (m : Sources ι α) (u : ι) (stored carried : Option α) : Option (Sources ι α) :=
  if (m.ripples u).isSome then none
  else some ⟨update m.docs u stored, update m.ripples u (some (.scan carried))⟩

/-- A ripple moves on, or ends. -/
def advance (m : Sources ι α) (u : ι) (stage : Option (RippleStage α)) : Sources ι α :=
  { m with ripples := update m.ripples u stage }

/-- What composing reads for a reference. -/
def lookup (m : Sources ι α) (ref : Option ι) : Option α := ref.bind m.docs

/-- A copy is what its reference leads to, or the ripple that makes it so is at work. -/
def Covers (m : Sources ι α) (ref : Option ι) (copy : Option α) : Prop :=
  copy = m.lookup ref ∨ ∃ u, ref = some u ∧ (m.ripples u).isSome

variable {m m' : Sources ι α} {u : ι} {ref : Option ι} {copy : Option α}

theorem Covers.write {stored carried : Option α} (h : m.write u stored carried = some m')
    (hc : m.Covers ref copy) : m'.Covers ref copy := by
  unfold Sources.write at h
  split_ifs at h with hidle
  obtain rfl := some.inj h
  cases ref with
  | none => exact .inl (hc.resolve_right (by simp))
  | some v =>
    by_cases hv : v = u
    · exact .inr ⟨v, rfl, by simp [hv]⟩
    · simpa [Covers, lookup, hv] using hc

theorem covers_advance_some {stage : RippleStage α} (hu : (m.ripples u).isSome) :
    (m.advance u (some stage)).Covers ref copy ↔ m.Covers ref copy := by
  have hp : ∀ v, (update m.ripples u (some stage) v).isSome = (m.ripples v).isSome := by
    intro v
    by_cases hv : v = u
    · simp [hv, hu]
    · simp [hv]
  simp [Covers, lookup, advance, hp]

theorem covers_advance_none (href : ref ≠ some u) :
    (m.advance u none).Covers ref copy ↔ m.Covers ref copy := by
  cases ref with
  | none => simp [Covers, lookup, advance]
  | some v =>
    have hv : v ≠ u := fun h => href (by rw [h])
    simp [Covers, lookup, advance, hv]

/-- No ripple is at work. -/
def Settled (m : Sources ι α) : Prop := ∀ u, m.ripples u = none

omit [DecidableEq ι] in
theorem Covers.eq (hm : m.Settled) (h : m.Covers ref copy) : copy = m.lookup ref :=
  h.resolve_right fun ⟨u, _, hu⟩ => by simp [hm u] at hu

end Sources

/-- A write behind a revision lands: it is newer, or carries no revision. -/
def lands (stored rev : ℕ) : Bool := rev = 0 || stored < rev

/-! ### The enrichments of a child array -/

/-- A child element: the reference it holds, and the copy beside it. -/
structure Element (ι α : Type) where
  ref : Option ι
  copy : Option α

/-- A stored child array with the revision it was written at, and the compositions under way. -/
structure InChildState (ι α : Type) where
  doc : Option (ℕ × List (Element ι α)) := none
  sources : Sources ι α := {}
  writers : ℕ → Option (ℕ × List (Element ι α)) := fun _ => none

inductive InChildAction (ι α : Type) where
  /-- A writer composes the array at a revision. -/
  | compose (w rev : ℕ) (refs : List (Option ι))
  /-- A writer's guarded write. -/
  | write (w : ℕ)
  /-- A source event, and the next step of its ripple. -/
  | source (u : ι) (stored carried : Option α)
  | ripple (u : ι)

/-- The guarded write of a child array: whole where it is newer, nothing otherwise. -/
def writeArray (doc : Option (ℕ × List (Element ι α))) (new : ℕ × List (Element ι α)) :
    ℕ × List (Element ι α) :=
  match doc with
  | none => new
  | some d => if lands d.1 new.1 then (max d.1 new.1, new.2) else d

/-- The edit of the elements that reference a source. -/
def editElements (u : ι) (after : Option α) (els : List (Element ι α)) : List (Element ι α) :=
  els.map fun e => if e.ref = some u then { e with copy := after } else e

/-- Any number of writers of one array, and the ripples of its sources. -/
def inChildMachine : Machine (InChildState ι α) (InChildAction ι α) where
  step s
    | .compose w rev refs =>
      if (s.writers w).isSome then none
      else
        let new := (rev, refs.map fun r => ⟨r, s.sources.lookup r⟩)
        some { s with writers := update s.writers w (some new) }
    | .write w => (s.writers w).map fun new => { s with
        doc := some (writeArray s.doc new)
        writers := update s.writers w none }
    | .source u stored carried => (s.sources.write u stored carried).map fun m =>
        { s with sources := m }
    | .ripple u =>
      match s.sources.ripples u with
      | none => none
      | some (.scan after) =>
        let found := s.doc.any fun d => d.2.any fun e => e.ref = some u
        some { s with sources := s.sources.advance u (if found then some (.edit after) else none) }
      | some (.edit after) => some { s with
          doc := s.doc.map fun d => (d.1, editElements u after d.2)
          sources := s.sources.advance u none }

/-- Every stored element has the copy of what it references, or a ripple is to bring it. -/
def Enriched (s : InChildState ι α) : Prop :=
  ∀ d, s.doc = some d → ∀ e ∈ d.2, s.sources.Covers e.ref e.copy

/-- An array that lands was composed of documents that are still current or about to ripple, and an
edit carries the document that is stored. -/
def InChildFresh (s : InChildState ι α) : InChildAction ι α → Prop
  | .write w => ∀ new, s.writers w = some new → (∀ d, s.doc = some d → lands d.1 new.1 = true) →
      ∀ e ∈ new.2, s.sources.Covers e.ref e.copy
  | .ripple u => ∀ after d, s.sources.ripples u = some (.edit after) → s.doc = some d →
      (∃ e ∈ d.2, e.ref = some u) → after = s.sources.docs u
  | _ => True

theorem enriched_step {s s' : InChildState ι α} {a : InChildAction ι α} (h : Enriched s)
    (hs : inChildMachine.step s a = some s') : Enriched s' ↔ InChildFresh s a := by
  cases a with
  | compose w rev refs =>
    simp only [inChildMachine] at hs
    split_ifs at hs
    obtain rfl := some.inj hs
    exact iff_of_true h trivial
  | write w =>
    obtain ⟨new, hnew, rfl⟩ := map_eq_some_iff.1 hs
    simp only [Enriched, InChildFresh, hnew, some.injEq, forall_eq']
    cases hd : s.doc with
    | none => simp [writeArray]
    | some d =>
      by_cases hl : lands d.1 new.1 = true
      · simp [writeArray, hl]
      · simpa [writeArray, hl] using h d hd
  | source u stored carried =>
    obtain ⟨m, hm, rfl⟩ := map_eq_some_iff.1 hs
    exact iff_of_true (fun d hd e he => (h d hd e he).write hm) trivial
  | ripple u =>
    simp only [inChildMachine] at hs
    cases hr : s.sources.ripples u with
    | none => simp [hr] at hs
    | some stage =>
      cases stage with
      | scan after =>
        simp only [hr, some.injEq] at hs
        obtain rfl := hs
        refine iff_of_true (fun d hd e he => ?_) (by simp [InChildFresh, hr])
        split_ifs with hfound
        · exact (covers_advance_some (by simp [hr])).2 (h d hd e he)
        · refine (covers_advance_none fun hu => hfound ?_).2 (h d hd e he)
          simp only [any_eq_true, List.any_eq_true, decide_eq_true_eq]
          exact ⟨d, hd, e, he, hu⟩
      | edit after =>
        simp only [hr, some.injEq] at hs
        obtain rfl := hs
        constructor
        · intro h' after' d hr' hd hex
          obtain ⟨e, he, hu⟩ := hex
          have hcov := h' (d.1, editElements u after d.2) (by simp [hd]) { e with copy := after }
            (List.mem_map.2 ⟨e, he, by simp [hu]⟩)
          simp_all [Sources.Covers, lookup, advance]
        · intro hfresh d' hd' e' he'
          obtain ⟨d, hd, rfl⟩ := map_eq_some_iff.1 hd'
          obtain ⟨e, he, rfl⟩ := List.mem_map.1 he'
          split_ifs with hu
          · refine .inl ?_
            simp [lookup, advance, hu, hfresh after d hr hd ⟨e, he, hu⟩]
          · exact (covers_advance_none hu).2 (h d hd e he)

/-- Every element has the copy of the document it references. -/
def InChildCurrent (s : InChildState ι α) : Prop :=
  ∀ d, s.doc = some d → ∀ e ∈ d.2, e.copy = s.sources.lookup e.ref

/-- **The enrichments of a child array.**  In every run they are current or about to be rippled
exactly as long as its steps are fresh, and then they are current once the ripples have ended. -/
theorem inChild_enriched_iff {as : List (InChildAction ι α)} {s' : InChildState ι α}
    (hrun : inChildMachine.run {} as = some s') :
    (inChildMachine.Always Enriched ({} : InChildState ι α) as ↔
      inChildMachine.Along InChildFresh ({} : InChildState ι α) as) ∧
    (inChildMachine.Along InChildFresh ({} : InChildState ι α) as → s'.sources.Settled →
      InChildCurrent s') := by
  have h0 : Enriched ({} : InChildState ι α) := nofun
  constructor
  · exact always_iff_along_of_run (K := fun _ => True)
      (fun a _ s s' _ h hs => ⟨trivial, enriched_step h hs⟩) trivial h0 (by simp [hrun])
  · intro hfresh hend d hd e he
    have hs' : Enriched s' := run_invariant (I := Enriched) (C := InChildFresh)
      (fun _ _ _ h hC hs => (enriched_step h hs).2 hC) h0 hfresh hrun
    exact (hs' d hd e he).eq hend

theorem inChild_current_after_ripple : ∃ s' : InChildState Unit ℕ,
    inChildMachine.run {} [.compose 0 1 [some ()], .write 0, .source () (some 1) (some 1),
      .ripple (), .ripple ()] = some s' ∧ InChildCurrent s' := by
  refine exists_run (·.sources.Settled) ⟨_, rfl, fun _ => rfl⟩ fun s hrun hend =>
    (inChild_enriched_iff hrun).2 ?_ hend
  simp [Machine.Along, InChildFresh, inChildMachine, Sources.Covers, lookup, write,
    advance, writeArray]

/-- The array is composed, the source changes and its ripple finds no document yet, and the array
is written: nothing is left that would correct it.  An edit that carries the document without its id
does not write what composing reads. -/
theorem inChild_stale :
    (∃ s' : InChildState Unit ℕ,
      inChildMachine.run {} [.source () (some 1) (some 1), .ripple (), .compose 0 1 [some ()],
        .source () (some 2) (some 2), .ripple (), .write 0] = some s' ∧
      s'.sources.Settled ∧ ¬ InChildCurrent s') ∧
    ∃ s' : InChildState Unit (Option Unit × ℕ),
      inChildMachine.run {} [.compose 0 1 [some ()], .write 0,
        .source () (some (some (), 1)) (some (none, 1)), .ripple (), .ripple ()] = some s' ∧
      s'.sources.Settled ∧ ¬ InChildCurrent s' := by
  refine ⟨⟨_, rfl, fun _ => rfl, fun h => ?_⟩, ⟨_, rfl, fun _ => rfl, fun h => ?_⟩⟩
  · exact absurd (h _ rfl _ List.mem_cons_self) (by decide)
  · exact absurd (h _ rfl _ List.mem_cons_self) (by decide)

/-! ### A root segment -/

/-- What a view document holds of a one-to-one embed: the reference and the segment, whose document
stands with its id. -/
structure OneDoc (ι β : Type) where
  rev : ℕ
  parentID : Option ι
  seg : Option (ι × β)

/-- How far a writer of the document is: it has composed it, has written it with a reference, or
has read the source again. -/
inductive OneWriter (ι β : Type) where
  | composed (rev : ℕ) (parentID : Option ι) (seg : Option (ι × β))
  | written (u : ι)
  | read (u : ι) (val : Option β)

/-- A view document, its sources and its writers. -/
structure OneState (ι β : Type) where
  doc : Option (OneDoc ι β) := none
  sources : Sources ι (ι × β) := {}
  writers : ℕ → Option (OneWriter ι β) := fun _ => none

/-- A writer moves on, or is done. -/
def OneState.goOn (s : OneState ι β) (w : ℕ) (st : Option (OneWriter ι β)) : OneState ι β :=
  { s with writers := update s.writers w st }

inductive OneAction (ι β : Type) where
  /-- A writer composes the document at a revision, with a reference or without. -/
  | compose (w rev : ℕ) (parentID : Option ι)
  /-- The next step of a writer: the guarded write, the read of the repair, its guarded write. -/
  | advance (w : ℕ)
  | source (u : ι) (stored carried : Option β)
  | ripple (u : ι)

/-- The guarded write of a document: the segment only where it creates the document. -/
def writeOne (doc : Option (OneDoc ι β)) (rev : ℕ) (parentID : Option ι) (seg : Option (ι × β)) :
    OneDoc ι β :=
  match doc with
  | none => ⟨rev, parentID, seg⟩
  | some d => if lands d.rev rev then ⟨max d.rev rev, parentID, d.seg⟩ else d

/-- The guarded write of `repairDanglingOneToOne`. -/
def repairOne (u : ι) (val : Option β) (d : OneDoc ι β) : OneDoc ι β :=
  if d.parentID = some u ∧ d.seg.map Prod.fst ≠ some u then { d with seg := val.map (u, ·) } else d

/-- The edit of a segment by the ripple of the source it references. -/
def surgicalOne (u : ι) (after : Option (ι × β)) (d : OneDoc ι β) : OneDoc ι β :=
  if d.parentID = some u then { d with seg := after } else d

/-- Any number of writers of one document, and the ripples of its sources. -/
def oneMachine : Machine (OneState ι β) (OneAction ι β) where
  step s
    | .compose w rev parentID =>
      if (s.writers w).isSome then none
      else
        some (s.goOn w (some (.composed rev parentID (s.sources.lookup parentID))))
    | .advance w => (s.writers w).map fun
      -- a document without a reference is not repaired
      | .composed rev parentID seg =>
        { s.goOn w (parentID.map .written) with doc := some (writeOne s.doc rev parentID seg) }
      | .written u => s.goOn w (some (.read u ((s.sources.docs u).map Prod.snd)))
      | .read u val => { s.goOn w none with doc := s.doc.map (repairOne u val) }
    | .source u stored carried =>
      (s.sources.write u (stored.map (u, ·)) (carried.map (u, ·))).map fun m =>
        { s with sources := m }
    | .ripple u =>
      match s.sources.ripples u with
      | none => none
      | some (.scan after) =>
        let found := s.doc.any fun d => d.parentID = some u
        some { s with sources := s.sources.advance u (if found then some (.edit after) else none) }
      | some (.edit after) => some { s with
          doc := s.doc.map (surgicalOne u after)
          sources := s.sources.advance u none }

section

variable {s s' : OneState ι β} {m : Sources ι (ι × β)} {writers : ℕ → Option (OneWriter ι β)}
  {w : ℕ} {x : OneWriter ι β} {st : Option (OneWriter ι β)} {d : OneDoc ι β} {u : ι}

/-- A writer is to repair references to a source. -/
def OneWriter.Repairs (u : ι) : OneWriter ι β → Prop
  | .composed .. => False
  | .written v | .read v _ => v = u

/-- Another writer is to repair references to a source. -/
def RepairedBeside (writers : ℕ → Option (OneWriter ι β)) (w : ℕ) (u : ι) : Prop :=
  ∃ w' x, w' ≠ w ∧ writers w' = some x ∧ x.Repairs u

/-- The segment shows another document than the one referenced, which is to be repaired. -/
def Dangling (writers : ℕ → Option (OneWriter ι β)) (d : OneDoc ι β) : Prop :=
  ∃ u, d.parentID = some u ∧ d.seg.map Prod.fst ≠ some u ∧ ∃ w x, writers w = some x ∧ x.Repairs u

/-- The segment is current, or a ripple or a repair is to make it so. -/
def LinkedDoc (m : Sources ι (ι × β)) (writers : ℕ → Option (OneWriter ι β)) (d : OneDoc ι β) :
    Prop :=
  m.Covers d.parentID d.seg ∨ Dangling writers d

def Linked (s : OneState ι β) : Prop := ∀ d, s.doc = some d → LinkedDoc s.sources s.writers d

/-- A segment fits a reference that is being written: it is current or about to ripple, or shows
another document, which the repair will see. -/
def Fits (m : Sources ι (ι × β)) (parentID : Option ι) (seg : Option (ι × β)) : Prop :=
  m.Covers parentID seg ∨ ∃ u, parentID = some u ∧ seg.map Prod.fst ≠ some u

/-- The segment a write leaves fits the reference it writes; a repair that applies read what is
still stored or about to ripple, or nothing while another repair is to come; an edit carries the
document that is stored, or a removal that a repair is to correct. -/
def OneFresh (s : OneState ι β) : OneAction ι β → Prop
  | .advance w =>
    match s.writers w, s.doc with
    | some (.composed _ parentID seg), none => Fits s.sources parentID seg
    | some (.composed rev parentID _), some d =>
      lands d.rev rev = true → Fits s.sources parentID d.seg
    | some (.read u val), some d => d.parentID = some u → d.seg.map Prod.fst ≠ some u →
        s.sources.Covers (some u) (val.map (u, ·)) ∨ val = none ∧ RepairedBeside s.writers w u
    | _, _ => True
  | .ripple u => ∀ after d, s.sources.ripples u = some (.edit after) → s.doc = some d →
      d.parentID = some u → after = s.sources.docs u ∨ Dangling s.writers { d with seg := after }
  | _ => True

omit [DecidableEq ι]

theorem exists_repairs_update :
    (∃ w' x, update writers w st w' = some x ∧ x.Repairs u) ↔
      (∃ x, st = some x ∧ x.Repairs u) ∨ RepairedBeside writers w u := by
  constructor
  · rintro ⟨w', x, hx, hu⟩
    by_cases hw : w' = w
    · exact .inl ⟨x, by simpa [hw] using hx, hu⟩
    · exact .inr ⟨w', x, hw, by simpa [hw] using hx, hu⟩
  · rintro (⟨x, rfl, hu⟩ | ⟨w', x, hw, hx, hu⟩)
    · exact ⟨w, x, by simp, hu⟩
    · exact ⟨w', x, by simpa [hw] using hx, hu⟩

theorem repairedBeside_of (hx : writers w = some x) (hu : ¬ x.Repairs u)
    (h : ∃ w x, writers w = some x ∧ x.Repairs u) : RepairedBeside writers w u := by
  obtain ⟨w', x', hx', hu'⟩ := h
  refine ⟨w', x', ?_, hx', hu'⟩
  rintro rfl
  exact hu (some.inj (hx.symm.trans hx') ▸ hu')

theorem linked_some : Linked ⟨some d, m, writers⟩ ↔ LinkedDoc m writers d := by
  simp [Linked]

/-- A writer that moves on keeps the document linked when it repairs what it was to repair. -/
theorem LinkedDoc.goOn (h : LinkedDoc m writers d) (hx : writers w = some x)
    (hst : ∀ u, d.parentID = some u → d.seg.map Prod.fst ≠ some u → x.Repairs u →
      ∃ x', st = some x' ∧ x'.Repairs u) : LinkedDoc m (update writers w st) d := by
  refine h.imp_right fun ⟨u, hu, hseg, hrep⟩ => ⟨u, hu, hseg, exists_repairs_update.2 ?_⟩
  by_cases hxu : x.Repairs u
  · exact .inl (hst u hu hseg hxu)
  · exact .inr (repairedBeside_of hx hxu hrep)

theorem linkedDoc_written :
    LinkedDoc m (update writers w (d.parentID.map .written)) d ↔ Fits m d.parentID d.seg := by
  refine or_congr Iff.rfl (exists_congr fun u => and_congr_right fun hu => ?_)
  exact and_iff_left (exists_repairs_update.2 (.inl ⟨.written u, by simp [hu], rfl⟩))

theorem linkedDoc_repaired {val : Option β} (hu : d.parentID = some u) :
    LinkedDoc m (update writers w none) { d with seg := val.map (u, ·) } ↔
      m.Covers (some u) (val.map (u, ·)) ∨ val = none ∧ RepairedBeside writers w u := by
  simp only [LinkedDoc, Dangling, exists_repairs_update, hu, some.injEq]
  cases val <;> simp

variable [DecidableEq ι]

theorem linked_advance (h : Linked s)
    (hs : oneMachine.step s (.advance w) = some s') : Linked s' ↔ OneFresh s (.advance w) := by
  obtain ⟨x, hx, rfl⟩ := map_eq_some_iff.1 hs
  obtain ⟨doc, m, writers⟩ := s
  simp only at hx
  cases x with
  | composed rev parentID seg =>
    simp only [OneFresh, hx]
    cases doc with
    | none => exact linked_some.trans (linkedDoc_written (d := ⟨rev, parentID, seg⟩))
    | some d =>
      refine linked_some.trans ?_
      by_cases hl : lands d.rev rev = true
      · simp only [writeOne, hl, if_true, forall_const]
        exact linkedDoc_written (d := ⟨max d.rev rev, parentID, d.seg⟩)
      · refine iff_of_true ?_ fun hl' => absurd hl' hl
        rw [writeOne, if_neg hl]
        exact (linked_some.1 h).goOn hx fun u _ _ hu => hu.elim
  | written u =>
    simp only [OneFresh, hx, iff_true]
    exact fun d hd => (h d hd).goOn hx fun v _ _ hv => ⟨_, rfl, hv⟩
  | read u val =>
    simp only [OneFresh, hx]
    cases doc with
    | none => exact iff_of_true nofun trivial
    | some d =>
      refine linked_some.trans ?_
      by_cases hg : d.parentID = some u ∧ d.seg.map Prod.fst ≠ some u
      · simp only [repairOne, if_pos hg]
        exact (linkedDoc_repaired hg.1).trans ⟨fun h _ _ => h, fun h => h hg.1 hg.2⟩
      · simp only [repairOne, if_neg hg]
        refine iff_of_true ?_ fun h1 h2 => absurd ⟨h1, h2⟩ hg
        exact (linked_some.1 h).goOn hx fun v hv hseg hu => absurd ⟨hu ▸ hv, hu ▸ hseg⟩ hg

theorem linked_step {a : OneAction ι β} (h : Linked s)
    (hs : oneMachine.step s a = some s') : Linked s' ↔ OneFresh s a := by
  cases a with
  | compose w rev parentID =>
    simp only [oneMachine] at hs
    split_ifs at hs with hidle
    obtain rfl := some.inj hs
    refine iff_of_true (fun d hd => (h d hd).imp_right ?_) trivial
    rintro ⟨u, hu, hseg, w', x, hx, hrep⟩
    refine ⟨u, hu, hseg, exists_repairs_update.2 (.inr ⟨w', x, ?_, hx, hrep⟩)⟩
    rintro rfl
    simp [hx] at hidle
  | advance w => exact linked_advance h hs
  | source u stored carried =>
    obtain ⟨m, hm, rfl⟩ := map_eq_some_iff.1 hs
    exact iff_of_true (fun d hd => (h d hd).imp_left (·.write hm)) trivial
  | ripple u =>
    simp only [oneMachine] at hs
    cases hr : s.sources.ripples u with
    | none => simp [hr] at hs
    | some stage =>
      cases stage with
      | scan after =>
        simp only [hr, some.injEq] at hs
        obtain rfl := hs
        refine iff_of_true (fun d hd => (h d hd).imp_left fun hc => ?_) (by simp [OneFresh, hr])
        split_ifs with hfound
        · exact (covers_advance_some (by simp [hr])).2 hc
        · refine (covers_advance_none fun hu => hfound ?_).2 hc
          rw [any_eq_true]
          exact ⟨d, hd, decide_eq_true hu⟩
      | edit after =>
        simp only [hr, some.injEq] at hs
        obtain rfl := hs
        obtain ⟨doc, m, writers⟩ := s
        cases doc with
        | none => exact iff_of_true nofun nofun
        | some d =>
          refine linked_some.trans ?_
          by_cases hu : d.parentID = some u
          · rw [surgicalOne, if_pos hu]
            have hcov : (m.advance u none).Covers d.parentID after ↔ after = m.docs u := by
              simp [Sources.Covers, lookup, advance, hu]
            refine (or_congr_left hcov).trans ⟨?_, fun hf => hf after d hr rfl hu⟩
            rintro hf _ _ hr' ⟨⟩ -
            cases hr.symm.trans hr'
            exact hf
          · rw [surgicalOne, if_neg hu]
            refine iff_of_true ((linked_some.1 h).imp_left (covers_advance_none hu).2) ?_
            rintro _ _ - ⟨⟩ hu'
            exact absurd hu' hu

end

/-- The segment is the document the reference names, null without one. -/
def OneCurrent (s : OneState ι β) : Prop :=
  ∀ d, s.doc = some d → d.seg = s.sources.lookup d.parentID

/-- Nothing is under way. -/
def OneState.Settled (s : OneState ι β) : Prop := s.sources.Settled ∧ ∀ w, s.writers w = none

/-- **A root segment.**  In every run it is current, or a ripple or a repair is to make it so,
exactly as long as its steps are fresh, and then it is current once all have finished. -/
theorem one_linked_iff {as : List (OneAction ι β)} {s' : OneState ι β}
    (hrun : oneMachine.run {} as = some s') :
    (oneMachine.Always Linked ({} : OneState ι β) as ↔
      oneMachine.Along OneFresh ({} : OneState ι β) as) ∧
    (oneMachine.Along OneFresh ({} : OneState ι β) as → s'.Settled → OneCurrent s') := by
  have h0 : Linked ({} : OneState ι β) := nofun
  constructor
  · exact always_iff_along_of_run (K := fun _ => True)
      (fun a _ s s' _ h hs => ⟨trivial, linked_step h hs⟩) trivial h0 (by simp [hrun])
  · intro hfresh hend d hd
    have hs' : Linked s' := run_invariant (I := Linked) (C := OneFresh)
      (fun _ _ _ h hC hs => (linked_step h hs).2 hC) h0 hfresh hrun
    refine ((hs' d hd).resolve_right ?_).eq hend.1
    rintro ⟨u, -, -, w, x, hx, -⟩
    simp [hend.2 w] at hx

/-- A document created before its source is repaired. -/
theorem one_repaired : ∃ s' : OneState Unit ℕ,
    oneMachine.run {} [.compose 0 1 (some ()), .source () (some 1) (some 1), .ripple (),
      .advance 0, .advance 0, .advance 0] = some s' ∧ s'.doc.map OneDoc.seg = some (some ((), 1)) ∧
    OneCurrent s' := by
  refine exists_run (fun s => s.doc.map OneDoc.seg = some (some ((), 1)) ∧ s.Settled)
    ⟨_, rfl, rfl, fun _ => rfl, fun w => by cases w <;> rfl⟩ fun s hrun ⟨hseg, hend⟩ =>
    ⟨hseg, (one_linked_iff hrun).2 ?_ hend⟩
  simp [Machine.Along, OneFresh, oneMachine, Fits, Sources.Covers, lookup, write,
    advance, OneState.goOn, writeOne]

/-- A source that changes between the composition and the creation of the document is not repaired:
the segment has the right id.  A reference that is cleared leaves its segment.  A repair writes back
a document that was deleted after it was read. -/
theorem one_stale : List.Forall (fun as : List (OneAction Unit ℕ) =>
    ∃ s', oneMachine.run {} as = some s' ∧ s'.Settled ∧ ¬ OneCurrent s')
    [[.source () (some 1) (some 1), .ripple (), .compose 0 1 (some ()),
        .source () (some 2) (some 2), .ripple (), .advance 0, .advance 0, .advance 0],
      [.source () (some 1) (some 1), .ripple (), .compose 0 1 (some ()), .advance 0, .advance 0,
        .advance 0, .compose 0 2 none, .advance 0],
      [.compose 0 1 (some ()), .source () (some 1) (some 1), .advance 0, .advance 0, .ripple (),
        .ripple (), .source () none none, .ripple (), .ripple (), .advance 0]] := by
  refine ⟨⟨_, rfl, ⟨fun _ => rfl, fun w => ?_⟩, fun h => ?_⟩,
    ⟨_, rfl, ⟨fun _ => rfl, fun w => ?_⟩, fun h => ?_⟩,
    ⟨_, rfl, ⟨fun _ => rfl, fun w => ?_⟩, fun h => ?_⟩⟩
  all_goals first
    | exact absurd (h _ rfl) (by decide)
    | cases w <;> rfl

end Omnicore.Query.Embed
