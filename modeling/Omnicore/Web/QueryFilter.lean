import Omnicore.Lib.Decimal
import Omnicore.Lib.Document
import Omnicore.Lib.Except

/-!
# Filter clauses

A read request names filter leaves with an operator and operands.  Each term becomes a clause under
the field path of its leaf, and several terms on one path accumulate.  The reader of a view selects
the documents on which every clause holds.

## Main definitions

* `applyFilterValues` : the clause of one term, merged into the filter.
* `selects` : the documents a filter selects.
* `denotes` : the documents a term asks for, by its operator alone.

## Main results

* `applyFilterValues_selects` : a term with an operand narrows the selection to what it asks for,
  and one without leaves it alone.
-/

namespace Omnicore.Queryschema

open AssocMap List Except

/-! ### Operators and leaves -/

/-- The filter operators. -/
inductive Operator where
  | opEq
  | opNe
  | opIn
  | opNin
  | opGte
  | opLte
  | opGt
  | opLt
  | opStartsWith
  | opContains
  | opIEq
  | opINe
  | opIIn
  | opINin
  | opIStartsWith
  | opIContains
  deriving DecidableEq, Repr

/-- The operators by their token on the wire. -/
def knownOps : AssocMap String Operator :=
  [("eq", .opEq), ("ne", .opNe), ("in", .opIn), ("nin", .opNin), ("gte", .opGte), ("lte", .opLte),
    ("gt", .opGt), ("lt", .opLt), ("startswith", .opStartsWith), ("contains", .opContains),
    ("ieq", .opIEq), ("ine", .opINe), ("iin", .opIIn), ("inin", .opINin),
    ("istartswith", .opIStartsWith), ("icontains", .opIContains)]

/-- The operator consumes many operands. -/
def operatorTakesList : Operator → Bool
  | .opIn | .opNin | .opIIn | .opINin => true
  | _ => false

/-- The declared type of a leaf, as far as the coercion tells types apart. -/
inductive LeafType where
  | time
  | duration
  | id
  | list (elem : LeafType)
  | string
  | int
  | uint
  | float
  | bool
  | other
  deriving DecidableEq, Repr

/-- What a filter leaf declares. -/
structure FilterSpec where
  ops : List Operator
  docPath : String
  leaf : LeafType

/-- The parsers of the standard library for dates, durations, fractions and identities, and the
decoder of a cursor, which gives the number of its keys. -/
structure WireEnv where
  parseTime : String → Option Value
  parseDuration : String → Option ℤ
  parseFloat : String → Option Value
  isUUID : String → Bool
  decodeCursor : String → Option ℕ

/-! ### Coercion -/

/-- One operand in the type its leaf declares. -/
def coerceLeaf (env : WireEnv) (s : String) : LeafType → Option Value
  | .time => env.parseTime s
  | .duration => (env.parseDuration s).map .int
  -- an empty probe asks for no identity
  | .id => if s = "" ∨ env.isUUID s then some (.str s) else none
  | .list elem => coerceLeaf env s elem
  | .string | .other => some (.str s)
  | .int => (Decimal.parseInt 64 s).map .int
  | .uint => (Decimal.parseUint 64 s).map .int
  | .float => env.parseFloat s
  | .bool =>
    if s = "true" then some (.bool true) else if s = "false" then some (.bool false) else none

/-! ### Clauses -/

/-- The neutral comparison operators. -/
inductive FilterOp where
  | filterNe
  | filterIn
  | filterNin
  | filterGt
  | filterGte
  | filterLt
  | filterLte
  deriving DecidableEq, Repr

/-- The shape of a text predicate. -/
inductive TextMatchKind where
  | textPrefix
  | textContains
  | textExact
  deriving DecidableEq, Repr

/-- One clause of a filter: a bare value is an equality. -/
inductive FilterClause where
  | scalar (v : Value)
  | clause (op : FilterOp) (values : List Value)
  | textMatch (value : String) (kind : TextMatchKind) (caseInsensitive negate : Bool)
  | textMatchList (values : List String) (caseInsensitive negate : Bool)
  deriving DecidableEq, Repr

/-- The entry of a field path: one clause, or several that accumulated. -/
inductive FilterEntry where
  | single (c : FilterClause)
  | multiClause (clauses : List FilterClause)
  deriving DecidableEq, Repr

/-- A filter, by field path. -/
abbrev Filter := AssocMap String FilterEntry

/-- Add a clause under a field path. -/
def mergeClause (filter : Filter) (field : String) (clause : FilterClause) : Filter :=
  match get filter field with
  | none => set filter field (.single clause)
  | some (.multiClause clauses) => set filter field (.multiClause (clauses ++ [clause]))
  | some (.single existing) => set filter field (.multiClause [existing, clause])

/-! ### Refusals -/

/-- The notification of a refusal. -/
inductive Notification where
  | schemaViolation
  | invalidFilterValue
  deriving DecidableEq, Repr

/-- A refused request: the field as the wire spelled it, and the value where one is to blame. -/
structure Violation where
  field : String
  notification : Notification := .schemaViolation
  value : String := ""
  deriving DecidableEq, Repr

variable (env : WireEnv) (leaf : LeafType) (wireKey : String)

/-- A refused operand. -/
def invalidValue (v : String) : Violation := ⟨wireKey, .invalidFilterValue, v⟩

/-- The operands of a list, refused at the first that has not the type of the leaf. -/
def coerceValues (env : WireEnv) (leaf : LeafType) (wireKey : String) :
    List String → Except Violation (List Value)
  | [] => .ok []
  | v :: values =>
    match coerceLeaf env v leaf with
    | none => .error (invalidValue wireKey v)
    | some item => do
      let items ← coerceValues env leaf wireKey values
      return item :: items

/-- The clause of a comparison with the first operand. -/
def comparison (value : String) (clause : Value → FilterClause) : Except Violation FilterClause :=
  match coerceLeaf env value leaf with
  | none => .error (invalidValue wireKey value)
  | some v => .ok (clause v)

variable (op : Operator)

/-- The clause of an operator on its operands, of which `value` is the first. -/
def filterClause (value : String) (values : List String) : Except Violation FilterClause :=
  match op with
  | .opEq => comparison env leaf wireKey value .scalar
  | .opIn => do return .clause .filterIn (← coerceValues env leaf wireKey values)
  | .opNin => do return .clause .filterNin (← coerceValues env leaf wireKey values)
  | .opNe => comparison env leaf wireKey value fun v => .clause .filterNe [v]
  | .opGte => comparison env leaf wireKey value fun v => .clause .filterGte [v]
  | .opLte => comparison env leaf wireKey value fun v => .clause .filterLte [v]
  | .opGt => comparison env leaf wireKey value fun v => .clause .filterGt [v]
  | .opLt => comparison env leaf wireKey value fun v => .clause .filterLt [v]
  | .opStartsWith => .ok (.textMatch value .textPrefix false false)
  | .opContains => .ok (.textMatch value .textContains false false)
  | .opIEq => .ok (.textMatch value .textExact true false)
  | .opINe => .ok (.textMatch value .textExact true true)
  | .opIStartsWith => .ok (.textMatch value .textPrefix true false)
  | .opIContains => .ok (.textMatch value .textContains true false)
  | .opIIn => .ok (.textMatchList values true false)
  | .opINin => .ok (.textMatchList values true true)

/-- Merge the clause of one term into the filter.  Without an operand there is nothing to merge. -/
def applyFilterValues (filter : Filter) (spec : FilterSpec) (wireKey : String) (op : Operator)
    (values : List String) : Except Violation Filter :=
  match values with
  | [] => .ok filter
  | value :: _ => do
    let clause ← filterClause env spec.leaf wireKey op value values
    return mergeClause filter spec.docPath clause

/-! ### The documents a filter selects -/

/-- A document, as the values it holds under a field path: those of each element below a
collection, none where the path leads nowhere. -/
abbrev Record := String → List Value

/-- `a` is below `b`, both of one type. -/
def below (a b : Value) : Bool := a.rank = b.rank && (a.compare b).isLT

/-- A text meets a probe. -/
def textMeets (kind : TextMatchKind) (caseInsensitive : Bool) (probe : String) : Value → Bool
  | .str s =>
    let s := (if caseInsensitive then s.toLower else s).toList
    let p := (if caseInsensitive then probe.toLower else probe).toList
    match kind with
    | .textPrefix => p.isPrefixOf s
    | .textContains => s.tails.any p.isPrefixOf
    | .textExact => s = p
  | _ => false

/-- The clause holds of the values under its path: a positive one of some value, a negative one of
none.  A comparison without operands is a comparison with the empty document. -/
def FilterClause.holds : FilterClause → List Value → Bool
  | .scalar v, vs => vs.any (· = v)
  | .clause _ [], vs => vs.any (· = .doc [])
  | .clause op (v :: values), vs =>
    match op with
    | .filterIn => vs.any fun x => x ∈ v :: values
    | .filterNin => !vs.any fun x => x ∈ v :: values
    | .filterNe => !vs.any (· = v)
    | .filterGt => vs.any fun x => below v x
    | .filterGte => vs.any fun x => below v x || x = v
    | .filterLt => vs.any fun x => below x v
    | .filterLte => vs.any fun x => below x v || x = v
  | .textMatch value kind ci negate, vs => (vs.any (textMeets kind ci value)) != negate
  | .textMatchList values ci negate, vs =>
    (vs.any fun x => values.any fun p => textMeets .textExact ci p x) != negate

/-- Every clause of an entry holds. -/
def FilterEntry.holds : FilterEntry → List Value → Bool
  | .single c, vs => c.holds vs
  | .multiClause clauses, vs => clauses.all (·.holds vs)

/-- The filter selects a document on which the entry of every path holds. -/
def selects (filter : Filter) (r : Record) : Bool := filter.all fun p => p.2.holds (r p.1)

/-! ### The documents a term asks for -/

/-- What a term asks of the values under its path: membership in a list of no operand is impossible
and its complement no restriction, and a comparison without operand asks for nothing. -/
def denotes (values : List String) (vs : List Value) : Bool :=
  let operand := values.head?.bind fun v => coerceLeaf env v leaf
  let operands := values.filterMap fun v => coerceLeaf env v leaf
  let probe := values.head?
  match op with
  | .opEq => operand.all fun v => vs.any (· = v)
  | .opNe => operand.all fun v => !vs.any (· = v)
  | .opGt => operand.all fun v => vs.any fun x => below v x
  | .opGte => operand.all fun v => vs.any fun x => below v x || x = v
  | .opLt => operand.all fun v => vs.any fun x => below x v
  | .opLte => operand.all fun v => vs.any fun x => below x v || x = v
  | .opIn => vs.any (· ∈ operands)
  | .opNin => !vs.any (· ∈ operands)
  | .opStartsWith => probe.all fun p => vs.any (textMeets .textPrefix false p)
  | .opContains => probe.all fun p => vs.any (textMeets .textContains false p)
  | .opIEq => probe.all fun p => vs.any (textMeets .textExact true p)
  | .opINe => probe.all fun p => !vs.any (textMeets .textExact true p)
  | .opIStartsWith => probe.all fun p => vs.any (textMeets .textPrefix true p)
  | .opIContains => probe.all fun p => vs.any (textMeets .textContains true p)
  | .opIIn => vs.any fun x => values.any fun p => textMeets .textExact true p x
  | .opINin => !vs.any fun x => values.any fun p => textMeets .textExact true p x

section

variable {env : WireEnv} {leaf : LeafType} {wireKey : String}

variable {values : List String} {value : String}

theorem coerceValues_ok {items : List Value}
    (h : coerceValues env leaf wireKey values = .ok items) :
    items = values.filterMap (fun v => coerceLeaf env v leaf) ∧ items.length = values.length := by
  induction values generalizing items with
  | nil =>
    cases h
    exact ⟨rfl, rfl⟩
  | cons v values ih =>
    rw [coerceValues] at h
    cases hv : coerceLeaf env v leaf with
    | none => simp [hv] at h
    | some item =>
      simp only [hv] at h
      obtain ⟨rest, hrest, h⟩ := bind_ok.1 h
      cases h
      obtain ⟨heq, hlen⟩ := ih hrest
      exact ⟨by simp [hv, heq], by simp [hlen]⟩

variable {c : FilterClause}

theorem comparison_ok {clause : Value → FilterClause}
    (h : comparison env leaf wireKey value clause = .ok c) :
    ∃ v, coerceLeaf env value leaf = some v ∧ c = clause v := by
  rw [comparison] at h
  cases hv : coerceLeaf env value leaf with
  | none => simp [hv] at h
  | some v =>
    simp only [hv] at h
    exact ⟨v, rfl, (ok.inj h).symm⟩

theorem list_clause_ok {op : FilterOp}
    (h : (do return .clause op (← coerceValues env leaf wireKey (value :: values))) = (.ok c :
      Except Violation FilterClause)) :
    ∃ v vs, (value :: values).filterMap (fun v => coerceLeaf env v leaf) = v :: vs ∧
      c = .clause op (v :: vs) := by
  obtain ⟨items, hitems, h⟩ := bind_ok.1 h
  obtain ⟨heq, hlen⟩ := coerceValues_ok hitems
  cases items with
  | nil => simp at hlen
  | cons v vs => exact ⟨v, vs, heq.symm, (ok.inj h).symm⟩

/-- **The clause of a term** holds of a document exactly if the term asks for it. -/
theorem filterClause_holds {op : Operator}
    (h : filterClause env leaf wireKey op value (value :: values) = .ok c) (vs : List Value) :
    c.holds vs = denotes env leaf op (value :: values) vs := by
  cases op with
  | opEq | opNe | opGte | opLte | opGt | opLt =>
    obtain ⟨v, hv, rfl⟩ := comparison_ok h
    simp [denotes, hv, FilterClause.holds]
  | opIn | opNin =>
    obtain ⟨v, items, hitems, rfl⟩ := list_clause_ok h
    simp [denotes, hitems, FilterClause.holds]
  | _ =>
    cases h
    simp [denotes, FilterClause.holds]

end

/-! ### Merging -/

variable {filter : Filter} {P : String × FilterEntry → Bool}

theorem all_set_of_get {k : String} {e e' : FilterEntry}
    {b : Bool} (h : get filter k = some e) (he : P (k, e') = (P (k, e) && b)) :
    (set filter k e').all P = (filter.all P && b) := by
  induction filter with
  | nil => cases h
  | cons p m ih =>
    simp only [AssocMap.set, AssocMap.get] at h ⊢
    split_ifs at h ⊢ with hk
    · subst hk
      obtain rfl := Option.some.inj h
      rw [all_cons, all_cons, he, Bool.and_right_comm]
    · rw [all_cons, all_cons, ih h, Bool.and_assoc]

theorem all_set_of_get_none {k : String} {e : FilterEntry}
    (h : get filter k = none) : (set filter k e).all P = (filter.all P && P (k, e)) := by
  induction filter with
  | nil => simp [AssocMap.set]
  | cons p m ih =>
    simp only [AssocMap.set, AssocMap.get] at h ⊢
    split_ifs at h ⊢ with hk
    rw [all_cons, all_cons, ih h, Bool.and_assoc]

theorem selects_mergeClause (field : String) (c : FilterClause) (r : Record) :
    selects (mergeClause filter field c) r = (selects filter r && c.holds (r field)) := by
  unfold mergeClause selects
  cases hget : get filter field with
  | none => exact all_set_of_get_none hget
  | some e =>
    cases e with
    | single existing => exact all_set_of_get hget (by simp [FilterEntry.holds])
    | multiClause clauses =>
      exact all_set_of_get hget (by simp [FilterEntry.holds, all_append])

/-- **One term.**  With an operand it narrows the selection to what it asks for, and without one
the filter stays as it is. -/
theorem applyFilterValues_selects {env : WireEnv} {filter' : Filter} {spec : FilterSpec}
    {wireKey : String} {op : Operator} {values : List String}
    (h : applyFilterValues env filter spec wireKey op values = .ok filter') (r : Record) :
    selects filter' r = (selects filter r &&
      (values.isEmpty || denotes env spec.leaf op values (r spec.docPath))) := by
  cases values with
  | nil =>
    cases h
    simp
  | cons value values =>
    obtain ⟨c, hc, h⟩ := bind_ok.1 h
    cases h
    rw [selects_mergeClause, filterClause_holds hc]
    simp

end Omnicore.Queryschema
