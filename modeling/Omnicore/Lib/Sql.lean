import Omnicore.Lib.Regex

/-!
# Search conditions of SQL

A search condition is true, false or unknown: a comparison with a null is unknown, and the
connectives are those of Kleene's logic.  A statement keeps the rows on which its condition is true.
`LIKE` reads its right side as a pattern.

## Main definitions

* `Truth` : the three truth values.
* `LikeToken.matches`, `readLike` : the meaning of a pattern, and its reading from the text.
* `Cond`, `Cond.eval` : the conditions, and their truth on a row.

## Main results

* `Truth.all_true_iff`, `Truth.any_true_iff`, `Truth.any_false_iff` : the connectives on lists.
* `readLike_escapeLike` : an escaped text stands for itself.
-/

namespace Sql

open List

/-! ### Truth values -/

/-- A truth value; `none` is unknown. -/
abbrev Truth := Option Bool

namespace Truth

/-- Negation leaves the unknown unknown. -/
def not (a : Truth) : Truth := a.map (! ·)

/-- Conjunction: a false side decides. -/
def and : Truth → Truth → Truth
  | some false, _ => some false
  | some true, b => b
  | none, some false => some false
  | none, _ => none

/-- Disjunction: a true side decides. -/
def or : Truth → Truth → Truth
  | some true, _ => some true
  | some false, b => b
  | none, some true => some true
  | none, _ => none

/-- The conjunction of a list. -/
def all (as : List Truth) : Truth := as.foldr and (some true)

/-- The disjunction of a list. -/
def any (as : List Truth) : Truth := as.foldr or (some false)

variable {a b : Truth} {as : List Truth}

@[simp] theorem not_true_iff : a.not = some true ↔ a = some false := by
  rcases a with _ | _ | _ <;> decide

@[simp] theorem and_true_iff : a.and b = some true ↔ a = some true ∧ b = some true := by
  rcases a with _ | _ | _ <;> rcases b with _ | _ | _ <;> decide

@[simp] theorem or_true_iff : a.or b = some true ↔ a = some true ∨ b = some true := by
  rcases a with _ | _ | _ <;> rcases b with _ | _ | _ <;> decide

@[simp] theorem or_false_iff : a.or b = some false ↔ a = some false ∧ b = some false := by
  rcases a with _ | _ | _ <;> rcases b with _ | _ | _ <;> decide

theorem all_true_iff : all as = some true ↔ ∀ a ∈ as, a = some true := by
  induction as with
  | nil => simp [all]
  | cons a as ih => simp [all, ← ih]

theorem any_true_iff : any as = some true ↔ ∃ a ∈ as, a = some true := by
  induction as with
  | nil => simp [any]
  | cons a as ih => simp only [any, foldr_cons, or_true_iff, exists_mem_cons_iff, ← ih]

theorem any_false_iff : any as = some false ↔ ∀ a ∈ as, a = some false := by
  induction as with
  | nil => simp [any]
  | cons a as ih => simp [any, ← ih]

end Truth

/-! ### Patterns -/

/-- A part of a `LIKE` pattern. -/
inductive LikeToken where
  | anyText
  | anyChar
  | lit (c : Char)
  deriving DecidableEq, Repr

/-- Read a pattern: `%` is any text, `_` any character, and a backslash makes the next character
stand for itself. -/
def readLike : List Char → List LikeToken
  | [] => []
  | '\\' :: c :: p => .lit c :: readLike p
  | c :: p => (if c = '%' then .anyText else if c = '_' then .anyChar else .lit c) :: readLike p

/-- The characters of a text meet a pattern, each up to `fold`. -/
def LikeToken.matches (fold : Char → Char) : List LikeToken → List Char → Bool
  | [], s => s.isEmpty
  | .anyText :: p, s => s.tails.any (LikeToken.matches fold p)
  | .anyChar :: _, [] => false
  | .anyChar :: p, _ :: s => LikeToken.matches fold p s
  | .lit _ :: _, [] => false
  | .lit c :: p, d :: s => fold c = fold d && LikeToken.matches fold p s

/-- Escape the characters that a pattern reads otherwise. -/
def escapeLike (s : List Char) : List Char :=
  s.flatMap fun c => if c = '\\' ∨ c = '%' ∨ c = '_' then ['\\', c] else [c]

variable {s : List Char}

/-- An escaped text stands for itself in front of a pattern. -/
theorem readLike_escapeLike (p : List Char) :
    readLike (escapeLike s ++ p) = s.map .lit ++ readLike p := by
  induction s with
  | nil => rfl
  | cons c s ih =>
    rw [escapeLike, flatMap_cons, append_assoc, ← escapeLike]
    by_cases hc : c = '\\' ∨ c = '%' ∨ c = '_'
    · rw [if_pos hc]
      exact congrArg (LikeToken.lit c :: ·) ih
    · rw [if_neg hc]
      simp only [not_or] at hc
      have hread : readLike (c :: (escapeLike s ++ p)) =
          .lit c :: readLike (escapeLike s ++ p) := by
        rw [readLike]
        · rw [if_neg hc.2.1, if_neg hc.2.2]
        · exact fun _ _ hq => absurd hq hc.1
      exact hread.trans (congrArg (LikeToken.lit c :: ·) ih)

section

variable (fold : Char → Char)

/-- A text in front of a pattern is met by a text that starts with it. -/
theorem matches_lits (v : List Char) (p : List LikeToken) (s : List Char) :
    LikeToken.matches fold (v.map .lit ++ p) s = true ↔
      ∃ t u, s = t ++ u ∧ t.map fold = v.map fold ∧ LikeToken.matches fold p u = true := by
  induction v generalizing s with
  | nil => simp
  | cons c v ih =>
    cases s with
    | nil => simp [LikeToken.matches]
    | cons d s =>
      rw [Regex.exists_split_cons]
      simp [LikeToken.matches, ih]

/-- A text in front of `%` is met by the texts that start with it. -/
theorem matches_lits_anyText (v : List Char) :
    LikeToken.matches fold (v.map .lit ++ [.anyText]) s = true ↔ v.map fold <+: s.map fold := by
  have hany : ∀ u, LikeToken.matches fold [.anyText] u = true := fun u =>
    any_eq_true.2 ⟨[], (mem_tails _ _).2 nil_suffix, rfl⟩
  rw [matches_lits, Regex.exists_split_iff fold hany]

/-- A text, up to `fold`. -/
theorem matches_exact (v s : List Char) :
    LikeToken.matches fold (v.map .lit) s = true ↔ s.map fold = v.map fold := by
  have h := matches_lits fold v [] s
  rw [append_nil] at h
  simp [h, LikeToken.matches]

end

/-! ### Conditions -/

/-- The comparison operators. -/
inductive CompareOp where
  | eq
  | ne
  | gt
  | ge
  | lt
  | le
  deriving DecidableEq, Repr

/-- The order of the values that are not null, and the text of those that have one. -/
structure Domain (α : Type*) where
  lt : α → α → Bool
  text : α → Option (List Char)

/-- A search condition over the columns `κ` and the values `α`; an operand `none` is null. -/
inductive Cond (κ α : Type*) where
  | const (b : Bool)
  | isNull (col : κ)
  | isNotNull (col : κ)
  | compare (op : CompareOp) (col : κ) (v : Option α)
  | inList (col : κ) (vs : List (Option α))
  | notInList (col : κ) (vs : List (Option α))
  /-- `LIKE`, with the characters compared up to `fold`. -/
  | like (fold : Char → Char) (col : κ) (pattern : Option α)
  | and (cs : List (Cond κ α))
  | or (cs : List (Cond κ α))
  | not (c : Cond κ α)

section

variable {κ α : Type*} [DecidableEq α] (dom : Domain α)

/-- The meaning of a comparison of two values that are not null. -/
def CompareOp.holds (op : CompareOp) (a b : α) : Bool :=
  match op with
  | .eq => a = b
  | .ne => a ≠ b
  | .gt => dom.lt b a
  | .ge => dom.lt b a || a = b
  | .lt => dom.lt a b
  | .le => dom.lt a b || a = b

/-- A comparison is unknown where a side is null. -/
def compare (op : CompareOp) : Option α → Option α → Truth
  | some a, some b => some (op.holds dom a b)
  | _, _ => none

/-- The text on the left meets the pattern on the right. -/
def like (fold : Char → Char) : Option α → Option α → Truth
  | some a, some p =>
    match dom.text a, dom.text p with
    | some s, some p => some (LikeToken.matches fold (readLike p) s)
    | _, _ => some false
  | _, _ => none

mutual

/-- The truth of a condition on a row. -/
def Cond.eval (row : κ → Option α) : Cond κ α → Truth
  | .const b => some b
  | .isNull col => some (row col).isNone
  | .isNotNull col => some (row col).isSome
  | .compare op col v => Sql.compare dom op (row col) v
  | .inList col vs => Truth.any (vs.map (Sql.compare dom .eq (row col)))
  | .notInList col vs => (Truth.any (vs.map (Sql.compare dom .eq (row col)))).not
  | .like fold col p => Sql.like dom fold (row col) p
  | .and cs => Truth.all (evalAll row cs)
  | .or cs => Truth.any (evalAll row cs)
  | .not c => (eval row c).not

/-- The truth of each of some conditions. -/
def Cond.evalAll (row : κ → Option α) : List (Cond κ α) → List Truth
  | [] => []
  | c :: cs => eval row c :: evalAll row cs

end

variable {dom}

theorem Cond.evalAll_eq_map (row : κ → Option α) (cs : List (Cond κ α)) :
    evalAll dom row cs = cs.map (eval dom row) := by
  induction cs with
  | nil => rfl
  | cons c cs ih => rw [evalAll, ih, map_cons]

variable {cs : List (Cond κ α)} {row : κ → Option α}

/-- A conjunction is true when every part is. -/
theorem Cond.eval_and :
    eval dom row (.and cs) = some true ↔ ∀ c ∈ cs, eval dom row c = some true := by
  rw [eval, evalAll_eq_map, Truth.all_true_iff, forall_mem_map]

/-- A disjunction is true when some part is. -/
theorem Cond.eval_or_true :
    eval dom row (.or cs) = some true ↔ ∃ c ∈ cs, eval dom row c = some true := by
  rw [eval, evalAll_eq_map, Truth.any_true_iff]
  simp

/-- A disjunction is false when every part is. -/
theorem Cond.eval_or_false :
    eval dom row (.or cs) = some false ↔ ∀ c ∈ cs, eval dom row c = some false := by
  rw [eval, evalAll_eq_map, Truth.any_false_iff, forall_mem_map]

end

end Sql
