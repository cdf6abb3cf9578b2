import Omnicore.Lib.Regex
import Omnicore.Web.QueryFilter

/-!
# The filter of a document store

The document reader turns the filter of a request into a filter of the document store.  An ordinal
or set clause becomes an operator, a text predicate a regular expression of the quoted text.  A
single clause lands under its field, several on one field in a conjunction.  How a store folds the
letters of a text that is compared without their case is a parameter.

## Main definitions

* `translateFilterValue`, `applyFilter` : the filter of the document store.
* `MongoCond.matches`, `MongoFilter.matches` : the documents it matches.
* `asks` : what a clause asks of a value.
* `odd` : the document store reads the clause against what it asks.

## Main results

* `translateFilterValue_matches` : a clause matches what it asks for, unless it is odd.
* `applyFilter_matches` : a filter matches when every clause does.
-/

namespace Omnicore.Queryschema

open List Regex FilterClause

/-! ### The filter of the document store -/

/-- A regular expression of the document store, whose only option is the letter case. -/
structure BsonRegex where
  pattern : List Char
  caseInsensitive : Bool
  deriving DecidableEq, Repr

/-- What the filter of the document store says of a field: a bare value, the empty document, or an
operator. -/
inductive MongoCond where
  | value (v : Value)
  | empty
  | isIn (values : List Value)
  | nin (values : List Value)
  | ne (v : Value)
  | gt (v : Value)
  | gte (v : Value)
  | lt (v : Value)
  | lte (v : Value)
  | regex (re : BsonRegex)
  | notRegex (re : BsonRegex)
  | inRegex (res : List BsonRegex)
  | ninRegex (res : List BsonRegex)
  deriving DecidableEq, Repr

/-- The regular expression of a text predicate: the quoted text, anchored by the kind. -/
def textPattern (value : String) (kind : TextMatchKind) : List Char :=
  let q := quoteMeta value.toList
  match kind with
  | .textPrefix => '^' :: q
  | .textExact => '^' :: (q ++ ['$'])
  | .textContains => q

/-- What the document store is asked for a clause. -/
def translateFilterValue : FilterClause → MongoCond
  | .clause _ [] => .empty
  | .clause op (v :: values) =>
    match op with
    | .filterIn => .isIn (v :: values)
    | .filterNin => .nin (v :: values)
    | .filterNe => .ne v
    | .filterGt => .gt v
    | .filterGte => .gte v
    | .filterLt => .lt v
    | .filterLte => .lte v
  | .textMatch value kind ci negate =>
    let re : BsonRegex := ⟨textPattern value kind, ci⟩
    if negate then .notRegex re else .regex re
  | .textMatchList values ci negate =>
    let res := values.map fun v => BsonRegex.mk ('^' :: (quoteMeta v.toList ++ ['$'])) ci
    if negate then .ninRegex res else .inRegex res
  | .scalar v => .value v

/-- The filter of the document store: the conditions of single fields, and the conjunction of
those that share a field with another. -/
structure MongoFilter where
  fields : List (String × MongoCond)
  and : List (String × MongoCond)

/-- The filter of the document store for a filter. -/
def applyFilter (src : Filter) : MongoFilter where
  fields := src.filterMap fun
    | (k, .single c) => some (k, translateFilterValue c)
    | (_, .multiClause _) => none
  and := src.flatMap fun
    | (_, .single _) => []
    | (k, .multiClause clauses) => clauses.map fun c => (k, translateFilterValue c)

variable (fold : Char → Char)

/-- How a text predicate compares characters. -/
def letterCase (caseInsensitive : Bool) : Char → Char := if caseInsensitive then fold else id

/-- A regular expression matches a text and no other value. -/
def BsonRegex.matches (re : BsonRegex) : Value → Bool
  | .str s => search (letterCase fold re.caseInsensitive) (readRegex re.pattern) s.toList
  | _ => false

/-- The condition matches the value of its field. -/
def MongoCond.matches : MongoCond → Value → Bool
  | .value v, x => x = v
  | .empty, x => x = .doc []
  | .isIn values, x => x ∈ values
  | .nin values, x => x ∉ values
  | .ne v, x => x ≠ v
  | .gt v, x => below v x
  | .gte v, x => below v x || x = v
  | .lt v, x => below x v
  | .lte v, x => below x v || x = v
  | .regex re, x => re.matches fold x
  | .notRegex re, x => !re.matches fold x
  | .inRegex res, x => res.any (·.matches fold x)
  | .ninRegex res, x => !res.any (·.matches fold x)

/-- The filter matches a document, given by the values of its fields. -/
def MongoFilter.matches (f : MongoFilter) (doc : String → Value) : Bool :=
  (f.fields.all fun p => p.2.matches fold (doc p.1)) &&
    f.and.all fun p => p.2.matches fold (doc p.1)

/-! ### What a clause asks -/

/-- A value of a column. -/
def isScalar : Value → Bool
  | .arr _ | .doc _ => false
  | _ => true

theorem ne_doc_of_scalar {x : Value} (h : isScalar x = true) : x ≠ .doc [] := by
  rintro rfl
  cases h

/-- A text meets a probe. -/
def meets (kind : TextMatchKind) (caseInsensitive : Bool) (probe : String) : Value → Bool
  | .str s =>
    let s := s.toList.map (letterCase fold caseInsensitive)
    let p := probe.toList.map (letterCase fold caseInsensitive)
    match kind with
    | .textPrefix => p.isPrefixOf s
    | .textContains => s.tails.any p.isPrefixOf
    | .textExact => s = p
  | _ => false

/-- What a clause asks of a value.  A `nin` of no operand asks for nothing; any other comparison
without operands no value meets. -/
def asks : FilterClause → Value → Bool
  | .scalar v, x => x = v
  | .clause .filterNin [], _ => true
  | .clause _ [], _ => false
  | .clause op (v :: values), x =>
    match op with
    | .filterIn => x ∈ v :: values
    | .filterNin => x ∉ v :: values
    | .filterNe => x ≠ v
    | .filterGt => below v x
    | .filterGte => below v x || x = v
    | .filterLt => below x v
    | .filterLte => below x v || x = v
  | .textMatch value kind ci negate, x => meets fold kind ci value x != negate
  | .textMatchList values ci negate, x => values.any (meets fold .textExact ci · x) != negate

/-- A text that is a probe with a line feed at the end. -/
def lineFed (ci : Bool) (probe : String) : Value → Bool
  | .str s =>
    s.toList.getLast? = some '\n' &&
      s.toList.dropLast.map (letterCase fold ci) = probe.toList.map (letterCase fold ci)
  | _ => false

/-- The document store reads the clause against what it asks: a `nin` of no operand, and a line
feed at the end of a text that is compared as a whole. -/
def odd : FilterClause → Value → Bool
  | .clause .filterNin [], _ => true
  | .textMatch value .textExact ci _, x =>
    lineFed fold ci value x && !meets fold .textExact ci value x
  | .textMatchList values ci _, x =>
    values.any (lineFed fold ci · x) && !values.any (meets fold .textExact ci · x)
  | _, _ => false

/-! ### Texts -/

variable {fold : Char → Char} {ci : Bool} {probe s : String}

theorem meets_contains :
    meets fold .textContains ci probe (.str s) = true ↔
      ∃ t ∈ s.toList.tails,
        probe.toList.map (letterCase fold ci) <+: t.map (letterCase fold ci) := by
  simp [meets, map_tails]

theorem meets_prefix :
    meets fold .textPrefix ci probe (.str s) = true ↔
      probe.toList.map (letterCase fold ci) <+: s.toList.map (letterCase fold ci) := by
  simp [meets]

theorem meets_exact :
    meets fold .textExact ci probe (.str s) = true ↔
      s.toList.map (letterCase fold ci) = probe.toList.map (letterCase fold ci) := by
  simp [meets]

theorem lineFed_str :
    lineFed fold ci probe (.str s) = true ↔ ∃ t, s.toList = t ++ ['\n'] ∧
      t.map (letterCase fold ci) = probe.toList.map (letterCase fold ci) := by
  simp only [lineFed, Bool.and_eq_true, decide_eq_true_eq, getLast?_eq_some_iff]
  constructor
  · rintro ⟨⟨t, ht⟩, hmap⟩
    rw [ht, dropLast_concat] at hmap
    exact ⟨t, ht, hmap⟩
  · rintro ⟨t, ht, hmap⟩
    rw [ht, dropLast_concat]
    exact ⟨⟨t, rfl⟩, hmap⟩

/-- The regular expression of a text predicate finds what the predicate asks for, or a whole text
that ends in a line feed. -/
theorem regex_matches (value : String) (kind : TextMatchKind) (x : Value) :
    (BsonRegex.mk (textPattern value kind) ci).matches fold x =
      (meets fold kind ci value x || kind = .textExact && lineFed fold ci value x) := by
  cases x with
  | str s =>
    have hquote := readRegex_quoteMeta value.toList []
    rw [append_nil, readRegex, append_nil] at hquote
    rw [Bool.eq_iff_iff, Bool.or_eq_true, BsonRegex.matches]
    cases kind with
    | textPrefix =>
      have hread : readRegex (textPattern value .textPrefix) =
          .start :: value.toList.map .lit := congrArg (Regex.Token.start :: ·) hquote
      rw [hread, search_start, meets_prefix]
      simp
    | textContains =>
      have hread : readRegex (textPattern value .textContains) = value.toList.map .lit := hquote
      rw [hread, search_contains, meets_contains]
      simp
    | textExact =>
      have hread : readRegex (textPattern value .textExact) =
          .start :: (value.toList.map .lit ++ [.stop]) :=
        congrArg (Regex.Token.start :: ·) (readRegex_quoteMeta value.toList ['$'])
      rw [hread, search_whole, meets_exact, ← lineFed_str]
      simp
  | _ => simp [BsonRegex.matches, meets, lineFed]

/-- Some regular expression of a list finds what a member asks for, or a line feed after it. -/
theorem regexList_matches (values : List String) (x : Value) :
    (values.map fun v => BsonRegex.mk ('^' :: (quoteMeta v.toList ++ ['$'])) ci).any
        (·.matches fold x) =
      (values.any (meets fold .textExact ci · x) || values.any (lineFed fold ci · x)) := by
  have hre : ∀ v : String, (BsonRegex.mk ('^' :: (quoteMeta v.toList ++ ['$'])) ci).matches fold x =
        (meets fold .textExact ci v x || lineFed fold ci v x) := fun v => by
    simpa [textPattern] using regex_matches v .textExact x
  rw [any_map, Bool.eq_iff_iff]
  simp [hre, and_or_left, exists_or]

/-! ### The reading of the document store -/

theorem translateFilterValue_matches (c : FilterClause) {x : Value} (hx : isScalar x = true) :
    (translateFilterValue c).matches fold x = (asks fold c x != odd fold c x) := by
  have hdoc := ne_doc_of_scalar hx
  cases c with
  | scalar v => simp [translateFilterValue, MongoCond.matches, asks, odd]
  | clause op values =>
    cases values with
    | nil =>
      cases op <;>
        simp [translateFilterValue, MongoCond.matches, asks, odd, hdoc]
    | cons v values => cases op <;> simp [translateFilterValue, MongoCond.matches, asks, odd]
  | textMatch value kind ci negate =>
    cases negate <;> cases kind <;>
      simp [translateFilterValue, MongoCond.matches, asks, odd, regex_matches] <;>
      grind
  | textMatchList values ci negate =>
    have hmatch : (translateFilterValue (.textMatchList values ci negate)).matches fold x =
        ((values.any (meets fold .textExact ci · x) ||
          values.any (lineFed fold ci · x)) != negate) := by
      rw [← regexList_matches, translateFilterValue]
      cases negate <;> simp [MongoCond.matches]
    simp only [asks, odd]
    grind

/-- The clauses of an entry. -/
def FilterEntry.clauses : FilterEntry → List FilterClause
  | .single c => [c]
  | .multiClause clauses => clauses

/-- The clauses of a filter, each with its field. -/
def clausesOf (filter : Filter) : List (String × FilterClause) :=
  filter.flatMap fun p => p.2.clauses.map (p.1, ·)

theorem forall_clausesOf {filter : Filter} {P : String → FilterClause → Prop} :
    (∀ p ∈ clausesOf filter, P p.1 p.2) ↔ ∀ p ∈ filter, ∀ c ∈ p.2.clauses, P p.1 c := by
  simp only [clausesOf, forall_mem_flatMap, forall_mem_map]

theorem applyFilter_matches (filter : Filter) (doc : String → Value) :
    (applyFilter filter).matches fold doc = true ↔
      ∀ p ∈ clausesOf filter, (translateFilterValue p.2).matches fold (doc p.1) = true := by
  rw [forall_clausesOf (P := fun k c => (translateFilterValue c).matches fold (doc k) = true)]
  simp only [MongoFilter.matches, applyFilter, Bool.and_eq_true, all_eq_true,
    forall_mem_flatMap, mem_filterMap]
  constructor
  · rintro ⟨hs, hm⟩ ⟨k, entry⟩ hp c hc
    cases entry with
    | single c' =>
      obtain rfl := mem_singleton.1 hc
      exact hs (k, translateFilterValue c) ⟨_, hp, rfl⟩
    | multiClause clauses => exact hm _ hp _ (mem_map_of_mem hc)
  · intro h
    constructor
    · rintro q ⟨⟨k, entry⟩, hp, hq⟩
      cases entry with
      | single c =>
        cases hq
        exact h _ hp c (mem_singleton.2 rfl)
      | multiClause clauses => cases hq
    · rintro ⟨k, entry⟩ hp q hq
      cases entry with
      | single c => cases hq
      | multiClause clauses =>
        obtain ⟨c, hc, rfl⟩ := mem_map.1 hq
        exact h _ hp c hc

end Omnicore.Queryschema
