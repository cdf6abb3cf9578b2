import Mathlib.Data.List.Infix

/-!
# Regular expressions of quoted texts

The patterns that are made of a quoted text and anchors.  A text meets a pattern when the pattern is
found at some place of it.  The anchor `^` is the start of the text, and `$` its end or the place
before a line feed that ends it.

## Main definitions

* `readRegex`, `search` : the reading of a pattern and its meaning.
* `quoteMeta` : quote a text.

## Main results

* `search_contains`, `search_start`, `search_whole` : the meaning of a quoted text without anchors,
  after `^`, and between `^` and `$`.
-/

namespace Regex

open List

/-- A part of a pattern. -/
inductive Token where
  | start
  | stop
  | lit (c : Char)
  deriving DecidableEq, Repr

/-- Read a pattern: a backslash makes the next character stand for itself. -/
def readRegex : List Char → List Token
  | [] => []
  | '\\' :: c :: p => .lit c :: readRegex p
  | c :: p => (if c = '^' then .start else if c = '$' then .stop else .lit c) :: readRegex p

/-- The pattern is found at this place of the text, each character up to `fold`; `first` tells
whether the place is the start. -/
def matchHere (fold : Char → Char) : List Token → Bool → List Char → Bool
  | [], _, _ => true
  | .start :: p, first, s => first && matchHere fold p first s
  | .stop :: p, first, s => (s = [] || s = ['\n']) && matchHere fold p first s
  | .lit _ :: _, _, [] => false
  | .lit c :: p, _, d :: s => fold c = fold d && matchHere fold p false s

/-- The pattern is found at some place of the text. -/
def search (fold : Char → Char) (p : List Token) (s : List Char) : Bool :=
  matchHere fold p true s || s.tails.tail.any (matchHere fold p false)

/-- The characters a pattern reads otherwise. -/
def metaChars : List Char :=
  ['\\', '.', '+', '*', '?', '(', ')', '|', '[', ']', '\x7b', '\x7d', '^', '$']

/-- Quote a text. -/
def quoteMeta (s : List Char) : List Char :=
  s.flatMap fun c => if c ∈ metaChars then ['\\', c] else [c]

/-- A quoted text stands for itself in front of a pattern. -/
theorem readRegex_quoteMeta (s p : List Char) :
    readRegex (quoteMeta s ++ p) = s.map .lit ++ readRegex p := by
  induction s with
  | nil => rfl
  | cons c s ih =>
    rw [quoteMeta, flatMap_cons, append_assoc, ← quoteMeta]
    by_cases hc : c ∈ metaChars
    · rw [if_pos hc]
      exact congrArg (Token.lit c :: ·) ih
    · rw [if_neg hc]
      have hread : readRegex (c :: (quoteMeta s ++ p)) =
          .lit c :: readRegex (quoteMeta s ++ p) := by
        rw [readRegex]
        · have hstart : c ≠ '^' := by
            rintro rfl
            exact hc (by decide)
          have hstop : c ≠ '$' := by
            rintro rfl
            exact hc (by decide)
          rw [if_neg hstart, if_neg hstop]
        · rintro _ _ rfl
          exact absurd (by decide) hc
      exact hread.trans (congrArg (Token.lit c :: ·) ih)

section

variable (fold : Char → Char)

/-- One character more in front of a text that another one starts with. -/
theorem exists_split_cons {c d : Char} {v s : List Char} {P : List Char → Prop} :
    (∃ t u, d :: s = t ++ u ∧ t.map fold = (c :: v).map fold ∧ P u) ↔
      fold c = fold d ∧ ∃ t u, s = t ++ u ∧ t.map fold = v.map fold ∧ P u := by
  constructor
  · rintro ⟨t, u, hs, ht, hu⟩
    obtain ⟨e, t, rfl, he, hv⟩ := map_eq_cons_iff.1 ht
    obtain ⟨rfl, rfl⟩ := cons.inj hs
    exact ⟨he.symm, t, u, rfl, hv, hu⟩
  · rintro ⟨hd, t, u, rfl, ht, hu⟩
    exact ⟨d :: t, u, rfl, by simp [hd, ht], hu⟩

theorem exists_split_iff {v s : List Char} {P : List Char → Prop} (hP : ∀ u, P u) :
    (∃ t u, s = t ++ u ∧ t.map fold = v.map fold ∧ P u) ↔ v.map fold <+: s.map fold := by
  constructor
  · rintro ⟨t, u, rfl, ht, -⟩
    exact ⟨u.map fold, by rw [map_append, ht]⟩
  · intro hr
    obtain ⟨t, ⟨u, rfl⟩, ht⟩ := prefix_map_iff.1 hr
    exact ⟨t, u, rfl, ht.symm, hP u⟩

/-- A text in front of a pattern. -/
theorem matchHere_lits (v : List Char) (p : List Token) (first : Bool) (s : List Char) :
    matchHere fold (v.map .lit ++ p) first s = true ↔
      ∃ t u, s = t ++ u ∧ t.map fold = v.map fold ∧
        matchHere fold p (first && v.isEmpty) u = true := by
  induction v generalizing first s with
  | nil => simp
  | cons c v ih =>
    cases s with
    | nil => simp [matchHere]
    | cons d s =>
      rw [exists_split_cons]
      simp [matchHere, ih]

/-- A text is found where the rest of the text starts with it. -/
theorem matchHere_text (v : List Char) (first : Bool) (s : List Char) :
    matchHere fold (v.map .lit) first s = true ↔ v.map fold <+: s.map fold := by
  have h := matchHere_lits fold v [] first s
  rw [append_nil] at h
  exact h.trans (exists_split_iff fold fun _ => rfl)

/-- A pattern that starts with `^` is found at the start or nowhere. -/
theorem search_anchored (p : List Token) (s : List Char) :
    search fold (.start :: p) s = matchHere fold p true s := by
  simp [search, matchHere]

/-- A text without anchors is found where it is a part. -/
theorem search_contains (v s : List Char) :
    search fold (v.map .lit) s = true ↔ ∃ t ∈ s.tails, v.map fold <+: t.map fold := by
  have htails : s.tails = s :: s.tails.tail := by cases s <;> rfl
  rw [search, htails, Bool.or_eq_true, tail_cons, matchHere_text, any_eq_true, exists_mem_cons_iff]
  simp [matchHere_text]

/-- A text after `^` is found at the start. -/
theorem search_start (v s : List Char) :
    search fold (.start :: v.map .lit) s = true ↔ v.map fold <+: s.map fold := by
  rw [search_anchored, matchHere_text]

/-- A text between `^` and `$` is the whole, but for a line feed at the end. -/
theorem search_whole (v s : List Char) :
    search fold (.start :: (v.map .lit ++ [.stop])) s = true ↔
      s.map fold = v.map fold ∨ ∃ t, s = t ++ ['\n'] ∧ t.map fold = v.map fold := by
  rw [search_anchored, matchHere_lits]
  simp only [matchHere, Bool.and_true, Bool.or_eq_true, decide_eq_true_eq]
  constructor
  · rintro ⟨t, u, rfl, ht, rfl | rfl⟩
    · exact .inl (by rw [append_nil, ht])
    · exact .inr ⟨t, rfl, ht⟩
  · rintro (h | ⟨t, rfl, ht⟩)
    · exact ⟨s, [], by simp, h, .inl rfl⟩
    · exact ⟨t, ['\n'], rfl, ht, .inr rfl⟩

end

end Regex
