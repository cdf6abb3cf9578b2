import Mathlib.Tactic.Common
import Omnicore.Lib.Machine

/-!
# Embeds of a collection

A view document may hold the source documents that name it.  A source event edits the element of
its id in every document concerned.  Where the document is not there yet, the ripple composes it,
reading all its elements, and writes the whole segment later.  The projection writes the segment
only when it creates the document.

## Main definitions

* `manyMachine` : the writers of one such document, and the event that excludes its root.

## Main results

* `many_shown_iff` : the segment shows every document whose ripple has ended exactly as long as
  every ripple writes what is stored.
* `excluded_iff` : an excluded root stays without a document exactly as long as no ripple writes
  one after the event was processed.
-/

namespace Omnicore.Query.Embed

open Function Option Machine

variable {ι α : Type} [DecidableEq ι]

/-- How far the ripple of a source document is, with the element it carries for this document. -/
inductive ManyStage (ι α : Type) where
  | probe (after : Option α)
  | edit (after : Option α)
  | compose
  | upsert (segment : ι → Option α)

/-- The event that takes a root out of the view: its deletion, or its archival in a view that drops
archived roots. -/
inductive Exclusion where
  | absent
  | pending
  | processed
  deriving DecidableEq

/-- A root, its document with the elements by id, the source documents that name it, the
compositions of the projection and the ripples under way. -/
structure ManyState (ι α : Type) where
  row : Bool := false
  event : Exclusion := .absent
  mirror : ι → Option α := fun _ => none
  doc : Option (ι → Option α) := none
  consults : ℕ → Option (ι → Option α) := fun _ => none
  ripples : ι → Option (ManyStage ι α) := fun _ => none

open ManyState

inductive ManyAction (ι α : Type) where
  | insertRow
  | excludeRow
  | processExclusion
  /-- The projection composes the document, and writes it. -/
  | compose (w : ℕ)
  | write (w : ℕ)
  /-- A source document is written; what is stored names this root with some content, or it does
  not.  The ripple carries the payload, which need not be all that is stored: the write merges. -/
  | mirror (c : ι) (stored carried : Option α)
  /-- The next step of its ripple. -/
  | ripple (c : ι)

/-- A ripple moves on, or ends. -/
def ManyState.goOn (s : ManyState ι α) (c : ι) (stage : Option (ManyStage ι α)) : ManyState ι α :=
  { s with ripples := update s.ripples c stage }

/-- The next step of a ripple.  A document that is there is edited, and never created; one that is
missing is composed, if its root is there, and written with the segment as it was read. -/
def rippleMany (s : ManyState ι α) (c : ι) : ManyStage ι α → ManyState ι α
  | .probe after => s.goOn c (some (if s.doc.isSome then .edit after else .compose))
  | .edit after => { s.goOn c none with
      doc := s.doc.map fun segment => update segment c after }
  | .compose => s.goOn c (if s.row then some (.upsert s.mirror) else none)
  | .upsert segment => { s.goOn c none with doc := some segment }

/-- The writers of a document.  The events of one source id are serialized, and a root lives
once. -/
def manyMachine : Machine (ManyState ι α) (ManyAction ι α) where
  step s
    | .insertRow => if s.row = false ∧ s.event = .absent then some { s with row := true } else none
    | .excludeRow => if s.row then some { s with row := false, event := .pending } else none
    | .processExclusion =>
      if s.event = .pending then some { s with doc := none, event := .processed } else none
    | .compose w =>
      if s.row ∧ (s.consults w).isNone then
        some { s with consults := update s.consults w (some s.mirror) }
      else none
    | .write w => (s.consults w).map fun segment => { s with
        -- a write after the event finds the tombstone, and removes what it has written
        doc := if s.event = .processed then none else some (s.doc.getD segment)
        consults := update s.consults w none }
    | .mirror c stored carried =>
      -- the documents named before and by the payload are discovered; no other is named by a merge
      let named := (s.mirror c).isSome ∨ carried.isSome
      if (s.ripples c).isNone ∧ (stored.isSome → named) then
        some { s.goOn c (if named then some (.probe carried) else none) with
          mirror := update s.mirror c stored }
      else none
    | .ripple c => (s.ripples c).map (rippleMany s c)

/-! ### Excluded roots -/

/-- No document is left of a root whose exclusion was processed. -/
def Excluded (s : ManyState ι α) : Prop := s.event = .processed → s.doc = none

/-- No ripple writes a composed document after the exclusion of its root was processed. -/
def WritesInTime (s : ManyState ι α) : ManyAction ι α → Prop
  | .ripple c => ∀ segment, s.ripples c = some (.upsert segment) → s.event ≠ .processed
  | _ => True

variable {s s' : ManyState ι α} {a : ManyAction ι α}

theorem excluded_step (h : Excluded s) (hs : manyMachine.step s a = some s') :
    Excluded s' ↔ WritesInTime s a := by
  cases a with
  | ripple c =>
    obtain ⟨stage, hc, rfl⟩ := map_eq_some_iff.1 hs
    cases stage with
    | upsert segment => simp [Excluded, WritesInTime, rippleMany, goOn, hc]
    | edit after =>
      refine iff_of_true (fun he => ?_) (by simp [WritesInTime, hc])
      have hdoc : s.doc = none := h he
      simp [rippleMany, hdoc]
    | _ => exact iff_of_true h (by simp [WritesInTime, hc])
  | write w =>
    obtain ⟨segment, -, rfl⟩ := map_eq_some_iff.1 hs
    exact iff_of_true (fun he => if_pos he) trivial
  | processExclusion =>
    obtain ⟨-, rfl⟩ := ite_some_none_eq_some.1 hs
    exact iff_of_true (fun _ => rfl) trivial
  | excludeRow =>
    obtain ⟨-, rfl⟩ := ite_some_none_eq_some.1 hs
    exact iff_of_true nofun trivial
  | _ =>
    simp only [manyMachine] at hs
    split_ifs at hs <;> cases hs <;> exact iff_of_true h trivial

/-- **Excluded roots.**  In every run a root whose exclusion was processed has no document exactly
as long as no ripple writes one after that. -/
theorem excluded_iff {as : List (ManyAction ι α)}
    (hrun : (manyMachine.run ({} : ManyState ι α) as).isSome) :
    manyMachine.Always Excluded ({} : ManyState ι α) as ↔
      manyMachine.Along WritesInTime ({} : ManyState ι α) as :=
  always_iff_along_of_run (K := fun _ => True)
    (fun _ _ _ _ _ h hs => ⟨trivial, excluded_step h hs⟩) trivial nofun hrun

/-- A root that is deleted after the ripple that created its document. -/
theorem excluded_after_ripple :
    manyMachine.Always Excluded ({} : ManyState Unit ℕ)
      [.insertRow, .mirror () (some 1) (some 1), .ripple (), .ripple (), .ripple (), .excludeRow,
        .processExclusion] := by
  refine (excluded_iff rfl).2 ?_
  simp [Machine.Along, WritesInTime, manyMachine, rippleMany, goOn]

/-- A ripple has composed a missing document when its root is deleted.  The deletion is processed,
and the ripple writes the document all the same: nothing is left that would remove it. -/
theorem excluded_root_comes_back :
    (manyMachine.run ({} : ManyState Unit ℕ)
      [.insertRow, .mirror () (some 1) (some 1), .ripple (), .ripple (), .excludeRow,
        .processExclusion, .ripple ()]).map
      (fun s => (s.row, s.event, s.doc.isSome, (s.ripples ()).isNone)) =
      some (false, .processed, true, true) := rfl

/-! ### The elements -/

/-- A segment has the element of every source document whose ripple has ended. -/
def Agrees (s : ManyState ι α) (segment : ι → Option α) : Prop :=
  ∀ c, segment c = s.mirror c ∨ (s.ripples c).isSome

def Shown (s : ManyState ι α) : Prop := ∀ segment, s.doc = some segment → Agrees s segment

/-- An edit carries the source document as it is stored, and a ripple that replaces a stored segment
has read the other elements as they are now, or as their own ripples will leave them. -/
def WritesStored (s : ManyState ι α) : ManyAction ι α → Prop
  | .ripple c => match s.ripples c with
    | some (.edit after) => after = s.mirror c
    | some (.upsert segment) => s.doc.isSome →
        ∀ c', c' ≠ c → segment c' = s.mirror c' ∨ (s.ripples c').isSome
    | _ => True
  | _ => True

/-- What the writers have read, as long as the root is not excluded.  A ripple that ends without
having found a document ends before anything is composed. -/
structure Staged (s : ManyState ι α) : Prop where
  event : s.event = .absent
  carries : ∀ c segment, s.ripples c = some (.upsert segment) → segment c = s.mirror c
  editing : ∀ c after, s.ripples c = some (.edit after) → s.doc.isSome
  early : s.row = false → s.doc = none ∧ (∀ w, s.consults w = none) ∧
    ∀ c segment, s.ripples c ≠ some (.upsert segment)
  consulted : s.doc = none → ∀ w segment, s.consults w = some segment → Agrees s segment
  rippled : s.doc = none → ∀ c segment, s.ripples c = some (.upsert segment) → Agrees s segment

theorem shown_ripple {c : ι} {stage : ManyStage ι α} (hk : Staged s) (h : Shown s)
    (hc : s.ripples c = some stage) :
    Staged (rippleMany s c stage) ∧
      (Shown (rippleMany s c stage) ↔ WritesStored s (.ripple c)) := by
  obtain ⟨row, event, mirror, doc, consults, ripples⟩ := s
  obtain ⟨hevent, hcarries, hediting, hearly, hconsulted, hrippled⟩ := hk
  dsimp only at hevent hcarries hediting hearly hconsulted hrippled hc
  subst hevent
  cases stage with
  | probe after | compose =>
    dsimp only [rippleMany, goOn]
    refine ⟨⟨rfl, ?_, ?_, ?_, ?_, ?_⟩, iff_of_true ?_ ?_⟩ <;>
      grind [Shown, Agrees, WritesStored, update_apply]
  | edit after =>
    obtain ⟨seg, rfl⟩ := isSome_iff_exists.1 (hediting c after hc)
    dsimp only [rippleMany, goOn]
    refine ⟨⟨rfl, ?_, fun _ _ _ => rfl, ?_, nofun, nofun⟩, ?_⟩
    · grind [update_apply]
    · grind [update_apply]
    · simp only [WritesStored, hc]
      constructor
      · intro hshown
        simpa using hshown _ rfl c
      · rintro rfl _ ⟨⟩ c'
        by_cases hc' : c' = c
        · simp [hc']
        · simpa [hc'] using h seg rfl c'
  | upsert segment =>
    have hcar := hcarries c segment hc
    dsimp only [rippleMany, goOn]
    have hown : ∀ c', (segment c' = mirror c' ∨ (update ripples c none c').isSome) ↔
        c' ≠ c → segment c' = mirror c' ∨ (ripples c').isSome := by
      intro c'
      by_cases hc' : c' = c
      · simpa [hc'] using hcar
      · simp [hc']
    refine ⟨⟨rfl, ?_, fun _ _ _ => rfl, ?_, nofun, nofun⟩, ?_⟩
    · grind [update_apply]
    · grind [update_apply]
    · simp only [Shown, Agrees, WritesStored, hc, some.injEq, forall_eq', hown]
      cases doc with
      | none => exact iff_of_true (fun c' _ => hrippled rfl c segment hc c') nofun
      | some d => simp

theorem shown_step (hk : Staged s) (h : Shown s) (ha : a ≠ .excludeRow)
    (hs : manyMachine.step s a = some s') : Staged s' ∧ (Shown s' ↔ WritesStored s a) := by
  obtain ⟨row, event, mirror, doc, consults, ripples⟩ := s
  obtain ⟨hevent, hcarries, hediting, hearly, hconsulted, hrippled⟩ := hk
  dsimp only at hevent hcarries hediting hearly hconsulted hrippled
  subst hevent
  cases a with
  | insertRow =>
    obtain ⟨-, rfl⟩ := ite_some_none_eq_some.1 hs
    exact ⟨⟨rfl, hcarries, hediting, nofun, hconsulted, hrippled⟩, iff_of_true h trivial⟩
  | excludeRow => exact absurd rfl ha
  | processExclusion => cases hs
  | compose w =>
    simp only [manyMachine] at hs
    split_ifs at hs with hrow
    cases hs
    refine ⟨⟨rfl, hcarries, hediting, fun h => by simp [hrow.1] at h, fun hd w' seg hw' => ?_,
      hrippled⟩, iff_of_true h trivial⟩
    grind [Agrees, update_apply]
  | write w =>
    obtain ⟨segment, hw, rfl⟩ := map_eq_some_iff.1 hs
    refine ⟨⟨rfl, hcarries, fun _ _ _ => rfl, fun hrow => ?_, nofun, nofun⟩,
      iff_of_true (fun seg hseg => ?_) trivial⟩
    · simp [(hearly hrow).2.1] at hw
    · cases doc with
      | none => exact some.inj hseg ▸ hconsulted rfl w segment hw
      | some d => exact h seg hseg
  | mirror c stored carried =>
    simp only [manyMachine, goOn] at hs
    split_ifs at hs with hidle hnamed
    · cases hs
      refine ⟨⟨rfl, ?_, ?_, ?_, ?_, ?_⟩, iff_of_true ?_ trivial⟩ <;>
        grind [Shown, Agrees, update_apply]
    · -- the document did not name the root, and still does not
      have hm : update mirror c stored = mirror := by
        simp_all [update_eq_self_iff]
      have hr : update ripples c none = ripples := by
        simp_all [update_eq_self_iff]
      cases hs
      rw [hm, hr]
      exact ⟨⟨rfl, hcarries, hediting, hearly, hconsulted, hrippled⟩, iff_of_true h trivial⟩
  | ripple c =>
    obtain ⟨stage, hc, rfl⟩ := map_eq_some_iff.1 hs
    exact shown_ripple ⟨rfl, hcarries, hediting, hearly, hconsulted, hrippled⟩ h hc

/-- **The elements of a collection.**  In every run of a root that is not excluded, the stored
segment shows every source document whose ripple has ended exactly as long as every ripple writes
what is stored; then it shows them all once the ripples have ended. -/
theorem many_shown_iff {as : List (ManyAction ι α)} {s' : ManyState ι α}
    (hkept : ∀ a ∈ as, a ≠ .excludeRow) (hrun : manyMachine.run {} as = some s') :
    (manyMachine.Always Shown ({} : ManyState ι α) as ↔
      manyMachine.Along WritesStored ({} : ManyState ι α) as) ∧
    (manyMachine.Along WritesStored ({} : ManyState ι α) as → (∀ c, s'.ripples c = none) →
      ∀ segment, s'.doc = some segment → segment = s'.mirror) := by
  have hk0 : Staged ({} : ManyState ι α) :=
    ⟨rfl, nofun, nofun, fun _ => ⟨rfl, fun _ => rfl, nofun⟩, nofun, nofun⟩
  have h0 : Shown ({} : ManyState ι α) := nofun
  refine ⟨always_iff_along_of_run (K := Staged)
    (fun a ha _ _ hk h hs => shown_step hk h (hkept a ha) hs) hk0 h0 (by simp [hrun]), ?_⟩
  intro hfresh hend segment hseg
  have hs' : Staged s' ∧ Shown s' := run_invariant (I := fun s => Staged s ∧ Shown s)
    (C := fun s a => WritesStored s a ∧ a ≠ .excludeRow)
    (fun _ _ _ hi hC hs => (shown_step hi.1 hi.2 hC.2 hs).imp_right fun h => h.2 hC.1)
    ⟨hk0, h0⟩ (hfresh.and_forall hkept) hrun
  funext c
  exact (hs'.2 segment hseg c).resolve_right (by simp [hend c])

/-- Two documents ripple into one that is there. -/
theorem two_elements_shown : ∃ s' : ManyState Bool ℕ,
    manyMachine.run {} [.insertRow, .compose 0, .mirror true (some 1) (some 1), .write 0,
      .ripple true, .mirror false (some 2) (some 2), .ripple false, .ripple false,
      .ripple true] = some s' ∧
    s'.doc = some s'.mirror := by
  refine exists_run (fun s => (∃ segment, s.doc = some segment) ∧ ∀ c, s.ripples c = none)
    ⟨_, rfl, ⟨_, rfl⟩, fun c => by cases c <;> rfl⟩ fun s hrun ⟨⟨segment, hseg⟩, hend⟩ => ?_
  rw [hseg, (many_shown_iff (by simp) hrun).2 ?_ hend segment hseg]
  simp [Machine.Along, WritesStored, manyMachine, rippleMany, goOn]

/-- Two ripples find no document and compose it, the second one with both elements.  It writes
first, and the first one replaces the segment by the one it has read: an element is lost.  An edit
with less than what is stored leaves an element that differs. -/
theorem element_lost :
    (manyMachine.run ({} : ManyState Bool ℕ)
      [.insertRow, .mirror true (some 1) (some 1), .ripple true, .ripple true,
        .mirror false (some 2) (some 2), .ripple false, .ripple false, .ripple false,
        .ripple true]).map
      (fun s => (s.mirror false, s.doc.map (· false), (s.ripples true).isNone,
        (s.ripples false).isNone)) = some (some 2, some none, true, true) ∧
    (manyMachine.run ({} : ManyState Bool ℕ)
      [.insertRow, .compose 0, .write 0, .mirror true (some 1) (some 0), .ripple true,
        .ripple true]).map (fun s => (s.mirror true, s.doc.map (· true))) =
      some (some 1, some (some 0)) := ⟨rfl, rfl⟩

end Omnicore.Query.Embed
