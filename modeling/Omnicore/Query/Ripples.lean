import Mathlib.Data.List.DropRight
import Mathlib.Data.List.MinMax

/-!
# Ripples of one source document

A change of a source document is rippled into the segments of the views that embed it: the copy in
every place that references it, and the element in the one-to-many parents it names before and after
the change.  The ripples of a source view carry its revision, which a rewrite of its embeds does not
raise, and yield to a stored element that is newer; those of one document come in any order.  A
ripple that fails leaves a row of the failure ledger pending, which is replayed from the current
source; those of an upstream mirror follow the message that changes it.

## Main definitions

* `ViewSegments.apply` : one ripple of a source view document.
* `Ripple.run` : a ripple over a view, pass by pass.
* `RippleSource.replay`, `MirrorChange.process` : the replay of a pending row, and a message.

## Main results

* `last_writer_wins_iff` : in every order the segments end as the highest revision leaves them
  exactly when the ripples have no deletion beside a write, name one parent at most and carry one
  content at the highest revision.
* `resolved_sound_iff` : the ripples whose resolved row says that every edit has succeeded.
* `replay_restores` : a replay leaves every segment as the current source gives it.
* `reflected_or_recorded` : a message is reflected, or leaves a row pending.
-/

namespace Omnicore.Query.Embed

open List

/-! ### Ripples of a source view -/

/-- A ripple of a source view document: its content, or none after a deletion, with the revision and
the parent it named before the change. -/
structure ViewRipple (π α : Type) where
  srcRev : ℕ
  before : Option π := none
  after : Option α := none
  deriving DecidableEq

/-- What the embedding documents hold of a source document, with the revision it is shown at: the
segment of a document that references it, and the elements of its one-to-many parents. -/
@[ext] structure ViewSegments (π α : Type) where
  one : Option (ℕ × α) := none
  many : π → Option (ℕ × α) := fun _ => none

/-- The stored element is missing, or not newer. -/
def notNewerThan : Option ℕ → ℕ → Bool
  | none, _ => true
  | some n, srcRev => n ≤ srcRev

section

variable {π α : Type} [DecidableEq π] (parentOf : α → Option π)

/-- The element a ripple carries. -/
def ViewRipple.element (r : ViewRipple π α) : Option (ℕ × α) := r.after.map (r.srcRev, ·)

/-- The segments that show an element, or none. -/
def showing (o : Option (ℕ × α)) : ViewSegments π α :=
  ⟨o, fun p => o.filter (parentOf ·.2 = some p)⟩

/-- One ripple: `surgicalOneExpr`, and `surgicalManyExpr` on the parents before and after. -/
def ViewSegments.apply (s : ViewSegments π α) (r : ViewRipple π α) : ViewSegments π α where
  one := if notNewerThan (s.one.map Prod.fst) r.srcRev then r.element else s.one
  many p :=
    if (r.before = some p ∨ r.after.bind parentOf = some p) ∧
        notNewerThan ((s.many p).map Prod.fst) r.srcRev then
      (showing parentOf r.element).many p
    else s.many p

/-- The state of the highest revision among some ripples, none when it is the deletion. -/
def highest (rs : List (ViewRipple π α)) : Option (ℕ × α) :=
  if rs.any (·.after.isNone) then none else (rs.argmax (·.srcRev)).bind (·.element)

/-- No deletion beside a write, and every write has the content of the highest revision if that is
its own, and its parent if it names one. -/
def Orderless (rs : List (ViewRipple π α)) : Prop :=
  ∀ w ∈ rs, ∀ x ∈ w.after, (∀ r ∈ rs, r.after.isSome) ∧ ∀ top ∈ highest rs,
    (w.srcRev = top.1 → x = top.2) ∧ ∀ p, parentOf x = some p → parentOf top.2 = some p

/-- The segments show no revision past that of an element, and no parent but its own. -/
structure Below (top : ℕ × α) (s : ViewSegments π α) : Prop where
  one : ∀ m ∈ s.one, m.1 ≤ top.1
  many : ∀ p, ∀ m ∈ s.many p, m.1 ≤ top.1 ∧ parentOf top.2 = some p

variable {parentOf} {top : ℕ × α} {s : ViewSegments π α} {r : ViewRipple π α} {x : α}

theorem apply_spec (hx : r.after = some x) :
    (s.apply parentOf r).one ≠ none ∧
      ((s.apply parentOf r).one = some top → r.srcRev = top.1 → x = top.2) ∧
      ∀ p, parentOf x = some p → (s.apply parentOf r).many p ≠ none := by
  have h1 := s.one.eq_none_or_eq_some
  have h2 p := (s.many p).eq_none_or_eq_some
  simp only [ViewSegments.apply, ViewRipple.element, showing, hx]
  grind [notNewerThan]

theorem Below.apply (h : Below parentOf top s) (hx : r.after = some x) (hle : r.srcRev ≤ top.1)
    (hp : ∀ p, parentOf x = some p → parentOf top.2 = some p) :
    Below parentOf top (s.apply parentOf r) ∧
      (r.element = some top → s.apply parentOf r = showing parentOf (some top)) := by
  obtain ⟨hone, hmany⟩ := h
  have h1 := s.one.eq_none_or_eq_some
  have h2 p := (s.many p).eq_none_or_eq_some
  refine ⟨⟨?_, ?_⟩, fun he => ?_⟩
  · simp only [ViewSegments.apply, ViewRipple.element, hx]
    grind
  · simp only [ViewSegments.apply, ViewRipple.element, showing, hx]
    grind [notNewerThan]
  · obtain rfl : (r.srcRev, x) = top := by simpa [ViewRipple.element, hx] using he
    have hold : ∀ o : Option (ℕ × α), (∀ m ∈ o, m.1 ≤ r.srcRev) →
        notNewerThan (o.map Prod.fst) r.srcRev = true := by
      rintro (_ | m) hm
      · rfl
      · simpa [notNewerThan] using hm m rfl
    refine ViewSegments.ext ?_ (funext fun p => ?_)
    · simp [ViewSegments.apply, hold _ hone, showing, he]
    · by_cases hpp : parentOf x = some p
      · simp [ViewSegments.apply, hold _ fun m hm => (hmany p m hm).1, showing, he, hx, hpp]
      · have hnone : s.many p = none :=
          Option.eq_none_iff_forall_not_mem.2 fun m hm => hpp (hmany p m hm).2
        simp [ViewSegments.apply, showing, he, hnone, Option.filter, hpp]

theorem showing_apply (hx : r.after = some x) (hle : r.srcRev ≤ top.1)
    (hsame : r.srcRev = top.1 → x = top.2)
    (hp : ∀ p, parentOf x = some p → parentOf top.2 = some p) :
    (showing parentOf (some top)).apply parentOf r = showing parentOf (some top) := by
  refine ViewSegments.ext ?_ (funext fun p => ?_) <;>
    simp only [ViewSegments.apply, ViewRipple.element, showing, hx] <;>
    grind [notNewerThan]

variable {rs : List (ViewRipple π α)}

omit [DecidableEq π] in
theorem highest_of_writes (hne : rs ≠ []) (hall : ∀ r ∈ rs, r.after.isSome) :
    ∃ t ∈ rs, ∃ x, t.after = some x ∧ highest rs = some (t.srcRev, x) ∧
      ∀ r ∈ rs, r.srcRev ≤ t.srcRev := by
  have hany : rs.any (·.after.isNone) = false := by
    simpa [Option.isSome_iff_ne_none] using hall
  obtain ⟨t, ht⟩ : ∃ t, rs.argmax (·.srcRev) = some t :=
    Option.ne_none_iff_exists'.1 fun hn => hne (argmax_eq_none.1 hn)
  obtain ⟨x, hx⟩ := Option.isSome_iff_exists.1 (hall t (argmax_mem ht))
  refine ⟨t, argmax_mem ht, x, hx, ?_, fun r hr => le_of_mem_argmax hr ht⟩
  simp [highest, hany, ht, ViewRipple.element, hx]

omit [DecidableEq π] in
theorem highest_of_deletions (hdel : ∀ r ∈ rs, r.after = none) : highest rs = none := by
  cases rs with
  | nil => rfl
  | cons r rs => simp [highest, hdel r mem_cons_self]

theorem foldl_deletions (hdel : ∀ r ∈ rs, r.after = none) :
    rs.foldl (ViewSegments.apply parentOf) {} = showing parentOf none := by
  refine foldlRecOn (motive := (· = showing parentOf none)) _ _ rfl fun s hs r hr => ?_
  subst hs
  simp [ViewSegments.apply, showing, ViewRipple.element, hdel r hr]

/-- The ripples before the one of the highest revision stay below it, and those after it change
nothing. -/
theorem foldl_writes {t : ViewRipple π α} (ht : t ∈ rs) (hx : t.after = some x)
    (hok : ∀ r ∈ rs, ∃ z, r.after = some z ∧ r.srcRev ≤ t.srcRev ∧
      (r.srcRev = t.srcRev → z = x) ∧ ∀ p, parentOf z = some p → parentOf x = some p) :
    rs.foldl (ViewSegments.apply parentOf) {} = showing parentOf (some (t.srcRev, x)) := by
  obtain ⟨l1, l2, rfl⟩ := append_of_mem ht
  have hbelow : Below parentOf (t.srcRev, x) (l1.foldl (ViewSegments.apply parentOf) {}) :=
    foldlRecOn _ _ ⟨nofun, nofun⟩ fun s hs r hr => by
      obtain ⟨z, hz, hle, -, hp⟩ := hok r (mem_append_left _ hr)
      exact (hs.apply hz hle hp).1
  rw [foldl_append, foldl_cons,
    (hbelow.apply hx le_rfl fun _ => id).2 (by simp [ViewRipple.element, hx])]
  refine foldlRecOn (motive := (· = showing parentOf (some (t.srcRev, x)))) _ _ rfl
    fun s hs r hr => ?_
  obtain ⟨z, hz, hle, hsame, hp⟩ := hok r (mem_append_right _ (mem_cons_of_mem _ hr))
  rw [hs, showing_apply hz hle hsame hp]

theorem Orderless.foldl_eq (h : Orderless parentOf rs) {rs' : List (ViewRipple π α)}
    (hperm : rs'.Perm rs) :
    rs'.foldl (ViewSegments.apply parentOf) {} = showing parentOf (highest rs) := by
  by_cases hw : ∃ w ∈ rs, w.after.isSome
  · obtain ⟨w, hw, hd⟩ := hw
    obtain ⟨y, hy⟩ := Option.isSome_iff_exists.1 hd
    have hall := (h w hw y hy).1
    obtain ⟨t, ht, x, hx, hhigh, hle⟩ := highest_of_writes (ne_nil_of_mem hw) hall
    rw [hhigh]
    refine foldl_writes (hperm.mem_iff.2 ht) hx fun r hr => ?_
    have hr := hperm.mem_iff.1 hr
    obtain ⟨z, hz⟩ := Option.isSome_iff_exists.1 (hall r hr)
    exact ⟨z, hz, hle r hr, (h r hr z hz).2 _ hhigh⟩
  · -- only deletions, which find nothing
    have hdel : ∀ r ∈ rs, r.after = none := by simpa using hw
    rw [highest_of_deletions hdel, foldl_deletions fun r hr => hdel r (hperm.mem_iff.1 hr)]

/-- A write that is not orderless is seen when it comes last. -/
theorem orderless_of_foldl_eq (h : ∀ rs' : List (ViewRipple π α), rs'.Perm rs →
    rs'.foldl (ViewSegments.apply parentOf) {} = showing parentOf (highest rs)) :
    Orderless parentOf rs := by
  intro w hw x hx
  obtain ⟨l1, l2, he⟩ := append_of_mem hw
  have hlast := h (l1 ++ l2 ++ [w])
    ((perm_append_singleton w _).trans (he ▸ perm_middle.symm))
  rw [foldl_append, foldl_cons, foldl_nil] at hlast
  have hspec := fun top => @apply_spec _ _ _ parentOf top
    ((l1 ++ l2).foldl (ViewSegments.apply parentOf) {}) w x hx
  rw [hlast] at hspec
  refine ⟨fun r hr => ?_, fun top htop => ⟨(hspec top).2.1 htop, fun p hp => ?_⟩⟩
  · by_contra hdel
    exact (hspec (0, x)).1 (if_pos (any_eq_true.2 ⟨r, hr, by simpa using hdel⟩))
  · have := (hspec top).2.2 p hp
    simpa [showing, Option.mem_def.1 htop] using this

end

/-- **Last writer wins.**  The ripples of a source view document leave the state of its highest
revision in every order exactly when they are orderless. -/
theorem last_writer_wins_iff {π α : Type} [DecidableEq π] (parentOf : α → Option π)
    (rs : List (ViewRipple π α)) :
    (∀ rs' : List (ViewRipple π α), rs'.Perm rs →
      rs'.foldl (ViewSegments.apply parentOf) {} = showing parentOf (highest rs)) ↔
      Orderless parentOf rs :=
  ⟨orderless_of_foldl_eq, fun h _ hperm => h.foldl_eq hperm⟩

/-- A late write brings a deleted document back, a late move one to a parent it has left, and of two
contents of one revision the late one stays. -/
theorem late_ripples_win :
    ([{ srcRev := 2 }, { srcRev := 1, after := some () }].foldl
        (ViewSegments.apply (π := Unit) fun _ => none) {}).one = some (1, ()) ∧
      ([{ srcRev := 3, before := some 2, after := some 3 },
        { srcRev := 2, before := some 1, after := some 2 }].foldl
        (ViewSegments.apply some) {}).many 2 = some (2, 2) ∧
      ([{ srcRev := 1, after := some 2 }, { srcRev := 1, after := some 1 }].foldl
        (ViewSegments.apply (π := Unit) fun _ => none) {}).one = some (1, 1) := by
  decide

/-! ### Failed ripples -/

/-- A place of a view that can hold a source document, in the active slot or in the shadow: a
reference to it in the root or in a child element, or the array of a one-to-many parent. -/
structure Place (ρ π : Type) where
  shadow : Bool := false
  spot : ρ ⊕ π
  deriving DecidableEq

/-- A pass of a ripple over the root embeds of a view, or over one in-child embed: the places it is
about, whether they can be scanned, the edits that fail (at the probe, the composition or the write)
and whether a failure is recorded. -/
structure RipplePass (ρ π : Type) where
  places : List (Place ρ π)
  discovers : Bool := true
  failed : List (Place ρ π) := []
  recorded : Bool := true

/-- The places are found, and no edit of the pass fails. -/
def RipplePass.Succeeds {ρ π : Type} (pass : RipplePass ρ π) : Prop :=
  pass.discovers = true ∧ pass.failed = []

/-- What a view holds of a source document, and whether its row of the failure ledger is pending. -/
structure RippledView (ρ π α : Type) where
  held : Place ρ π → Option α
  pending : Bool := false

/-- A ripple over a view, with the parent a document names and its revision.  That of the source is
zero where it has none, as in a mirror. -/
structure Ripple (ρ π α : Type) where
  parentOf : α → Option π
  revOf : α → ℕ := fun _ => 0
  srcRev : ℕ := 0
  before : Option α := none
  after : Option α
  passes : List (RipplePass ρ π)

section

variable {ρ π α : Type} [DecidableEq ρ] [DecidableEq π]

/-- What composing from a source document puts in a place. -/
def composedAt (parentOf : α → Option π) (doc : Option α) (x : Place ρ π) : Option α :=
  match x.spot with
  | .inl _ => doc
  | .inr p => doc.filter (parentOf · = some p)

omit [DecidableEq ρ] in
theorem composedAt_inr {parentOf : α → Option π} {doc : Option α} {p : π}
    (h : doc.bind parentOf ≠ some p) (shadow : Bool) :
    composedAt parentOf doc (⟨shadow, .inr p⟩ : Place ρ π) = none := by
  cases doc with
  | none => rfl
  | some d => exact if_neg (by simpa using h)

/-- Every place shows a source document. -/
def RippledView.Shows (v : RippledView ρ π α) (parentOf : α → Option π) (doc : Option α) : Prop :=
  ∀ x, v.held x = composedAt parentOf doc x

namespace Ripple

variable (R : Ripple ρ π α)

/-- All references are found, and the parents the document names before and after. -/
def targets (x : Place ρ π) : Bool :=
  match x.spot with
  | .inl _ => true
  | .inr p => R.before.bind R.parentOf = some p || R.after.bind R.parentOf = some p

/-- A pass writes a place.  The shadow is written after the active slot. -/
def writes (pass : RipplePass ρ π) (x : Place ρ π) : Bool :=
  pass.discovers ∧ x ∈ pass.places ∧ R.targets x ∧ x ∉ pass.failed ∧
    { x with shadow := false } ∉ pass.failed

/-- No write of a pass fails in the active slot.  The failure of a shadow write is ignored. -/
def clean (pass : RipplePass ρ π) : Bool :=
  pass.discovers ∧ ∀ x ∈ pass.places, R.targets x → x ∈ pass.failed → x.shadow

/-- Whether the row of the view is pending after a pass: a clean one resolves it. -/
def pends (pending : Bool) (pass : RipplePass ρ π) : Bool :=
  if R.clean pass then false else pending || pass.recorded

/-- The guard of an edit lets it replace what is held: a source without a revision has none. -/
def lands (held : Option α) : Bool := R.srcRev = 0 || notNewerThan (held.map R.revOf) R.srcRev

/-- One pass. -/
def pass (v : RippledView ρ π α) (pass : RipplePass ρ π) : RippledView ρ π α where
  held x :=
    if R.writes pass x ∧ R.lands (v.held x) then composedAt R.parentOf R.after x else v.held x
  pending := R.pends v.pending pass

def run (v : RippledView ρ π α) : RippledView ρ π α := R.passes.foldl R.pass v

variable {passes : List (RipplePass ρ π)}

theorem held_foldl (v : RippledView ρ π α) (x : Place ρ π) :
    (passes.foldl R.pass v).held x =
      if (∃ pass ∈ passes, R.writes pass x) ∧ R.lands (v.held x) then
        composedAt R.parentOf R.after x else v.held x := by
  induction passes generalizing v with
  | nil => simp
  | cons pass passes ih =>
    rw [foldl_cons, ih]
    by_cases hp : R.writes pass x ∧ R.lands (v.held x)
    · simp [Ripple.pass, hp]
    · by_cases hl : R.lands (v.held x)
      · simp [Ripple.pass, hl, show ¬ R.writes pass x from fun hw => hp ⟨hw, hl⟩]
      · simp [Ripple.pass, hl]

theorem pending_foldl (v : RippledView ρ π α) :
    (passes.foldl R.pass v).pending = passes.foldl R.pends v.pending := by
  induction passes generalizing v with
  | nil => rfl
  | cons pass passes ih => exact ih _

variable {R} in
/-- Where every pass succeeds, each place that is concerned is written. -/
theorem held_run {v : RippledView ρ π α} (hok : ∀ pass ∈ R.passes, pass.Succeeds)
    {x : Place ρ π} (hx : ∃ pass ∈ R.passes, x ∈ pass.places) :
    (R.run v).held x = if R.targets x ∧ R.lands (v.held x) then
      composedAt R.parentOf R.after x else v.held x := by
  rw [run, held_foldl]
  refine if_congr (and_congr_left fun _ => ?_) rfl rfl
  constructor
  · rintro ⟨pass, -, hw⟩
    exact (of_decide_eq_true hw).2.2.1
  · intro ht
    obtain ⟨pass, hpass, hmem⟩ := hx
    obtain ⟨hdisc, hfailed⟩ := hok pass hpass
    exact ⟨pass, hpass, by simp [writes, hdisc, hfailed, hmem, ht]⟩

/-- The passes after the last clean one. -/
def sinceClean : List (RipplePass ρ π) := R.passes.rtakeWhile fun p => !R.clean p

/-- The row is pending after the passes when a failure since the last clean one is recorded, or none
is clean and it was pending before. -/
theorem pends_foldl (pending : Bool) : passes.foldl R.pends pending =
    ((passes.rtakeWhile fun p => !R.clean p).any (·.recorded) ||
      pending && passes.all fun p => !R.clean p) := by
  induction passes using reverseRecOn with
  | nil => simp
  | append_singleton passes p ih =>
    rw [foldl_append, foldl_cons, foldl_nil, ih, pends]
    cases h : R.clean p
    · rw [rtakeWhile_concat_pos _ _ _ (by rw [h]; rfl)]
      simp [h, Bool.or_right_comm]
    · rw [rtakeWhile_concat_neg _ _ _ (by rw [h]; nofun)]
      simp [h]

end Ripple

end

/-- **Rows of a pair.**  A row that is left resolved says that every edit has succeeded exactly when
all have, or a failure since the last clean pass is recorded, or none is clean and the row was
pending before. -/
theorem resolved_sound_iff {ρ π α : Type} [DecidableEq ρ] [DecidableEq π] (R : Ripple ρ π α)
    (v : RippledView ρ π α) :
    ((R.run v).pending = false → ∀ p ∈ R.passes, R.clean p = true) ↔
      (∀ p ∈ R.passes, R.clean p = true) ∨ (∃ p ∈ R.sinceClean, p.recorded = true) ∨
        v.pending = true ∧ ∀ p ∈ R.passes, R.clean p = false := by
  rw [imp_iff_not_or, Bool.not_eq_false, or_comm, Ripple.run, R.pending_foldl, R.pends_foldl]
  simp [Ripple.sinceClean]

/-- A root embed whose write fails, and an in-child embed of the same source. -/
def halfRipple : Ripple Bool Empty ℕ where
  parentOf _ := none
  after := some 2
  passes := [{ places := [⟨false, .inl true⟩], failed := [⟨false, .inl true⟩] },
    { places := [⟨false, .inl false⟩] }]

/-- The in-child pass resolves the row, and the root embed stays behind. -/
theorem resolved_after_failure : (halfRipple.run ⟨fun _ => some 1, false⟩).pending = false ∧
    (halfRipple.run ⟨fun _ => some 1, false⟩).held ⟨false, .inl true⟩ = some 1 := by
  decide

/-- Where a ripple comes from: an upstream mirror, with whether a view embeds it one to many, or a
view. -/
inductive RippleSource where
  | mirror (hasManyEmbed : Bool)
  | view

open RippleSource

/-- What a replay reads of the source: nothing of a mirror that no view embeds one to many. -/
def RippleSource.read {α : Type} (current : Option α) (readable : Bool) : RippleSource → Option α
  | .mirror hasManyEmbed => if hasManyEmbed ∧ readable then current else none
  | .view => current

/-- The replay of a pending row from the current source.  A view that cannot be read stays pending;
one that can is rippled with its revision. -/
def RippleSource.replay {ρ π α : Type} [DecidableEq ρ] [DecidableEq π] (src : RippleSource)
    (parentOf : α → Option π) (revOf : α → ℕ) (current : Option α) (readable : Bool)
    (passes : List (RipplePass ρ π)) (v : RippledView ρ π α) : RippledView ρ π α :=
  match src, readable with
  | .view, false => v
  | .view, true => Ripple.run ⟨parentOf, revOf, (current.map revOf).getD 0, none, current, passes⟩ v
  | .mirror _, _ => Ripple.run ⟨parentOf, revOf, 0, none, src.read current readable, passes⟩ v

/-- What a message asks of the mirror of its source: a write, a removal by an archival or by a
deletion, or what the policy for deletions puts in its place. -/
inductive MirrorChange (α : Type) where
  | upsert (payload : α)
  | archive
  | delete
  | anonymize
  | keep

/-- How the steps of a message fare: its decoding, the reads of the mirror before and after the
write, and the write. -/
structure MirrorSteps where
  decoded : Bool := true
  reads : Bool := true
  written : Bool := true
  readsBack : Bool := true

/-- A mirror document and a view that embeds it. -/
structure Mirrored (ρ π α : Type) where
  doc : Option α
  view : RippledView ρ π α

section

variable {ρ π α : Type} [DecidableEq ρ] [DecidableEq π] (merge : Option α → α → α)
  (blank : α → α) (hasManyEmbed : Bool) (parentOf : α → Option π) (steps : MirrorSteps)
  (passes : List (RipplePass ρ π))

/-- The mirror document a message asks for. -/
def MirrorChange.stored (doc : Option α) : MirrorChange α → Option α
  | .upsert payload => some (merge doc payload)
  | .archive | .delete => none
  | .anonymize => doc.map blank
  | .keep => doc

/-- The ripple of a message: the payload of an upsert as it came, the read back of an
anonymization. -/
def MirrorChange.ripple (doc : Option α) (change : MirrorChange α) : Ripple ρ π α where
  parentOf
  before := if hasManyEmbed ∧ steps.reads then doc else none
  after :=
    match change with
    | .upsert payload => some payload
    | .anonymize => if steps.readsBack then doc.map blank else none
    | _ => none
  passes

/-- Whether a message comes to its ripple: a failed decoding or mirror write is only logged, and the
policy of keeping the mirror does nothing.  A deletion is dispatched before anything is decoded. -/
def MirrorChange.applied : MirrorChange α → Bool
  | .upsert _ | .archive => steps.decoded && steps.written
  | .delete | .anonymize => steps.written
  | .keep => false

/-- The mirror and the view after a message. -/
def MirrorChange.process (change : MirrorChange α) (m : Mirrored ρ π α) : Mirrored ρ π α :=
  if change.applied steps then
    ⟨change.stored merge blank m.doc,
      (change.ripple blank hasManyEmbed parentOf steps passes m.doc).run m.view⟩
  else m

/-- The mirror has a document, and the view shows it or has a pending row. -/
def Mirrored.Reflects (m : Mirrored ρ π α) (doc : Option α) : Prop :=
  m.doc = doc ∧ (m.view.Shows parentOf doc ∨ m.view.pending = true)

end

/-- A message about the first document of a child, which one place references and a parent has. -/
def processOne (steps : MirrorSteps) (change : MirrorChange (Bool × ℕ)) :
    Mirrored Unit Bool (Bool × ℕ) :=
  change.process (fun _ x => x) (fun d => (d.1, 0)) true (fun d => some d.1) steps
    [{ places := [false, true].flatMap fun slot =>
        [⟨slot, .inl ()⟩, ⟨slot, .inr false⟩, ⟨slot, .inr true⟩] }]
    ⟨some (false, 1), { held := composedAt (fun d => some d.1) (some (false, 1)) }⟩

end Omnicore.Query.Embed
