import Omnicore.Web.QueryFilter

/-!
# From a read request to its criteria

Every surface decodes its wire into one neutral request, and what the request means is decided in
one place: the filter terms against the declared leaves, the ordering against its vocabulary, the
projection, the reserved controls and the shape of a cursor.

## Main definitions

* `buildCriteria` : the criteria of a decoded request, or the first violation.
* `decodeQuery` : the request of a query string.

## Main results

* `buildCriteria_selects` : the filter of accepted criteria selects what the terms with an operand
  ask for.
* `enforced_iff` : it selects what all terms ask for unless some membership in an empty list is
  dropped that the other terms do not make up for.
-/

namespace Omnicore.Queryschema

open Except List String

/-! ### Requests -/

/-- One filter the wire carried. -/
structure FilterTerm where
  path : String
  op : Operator := .opEq
  values : List String
  /-- The token as the wire spelled it. -/
  raw : String
  deriving DecidableEq, Repr

/-- One ordering term the wire carried. -/
structure OrderTerm where
  path : String
  desc : Bool := false
  raw : String
  deriving DecidableEq, Repr

/-- The reserved controls of a request: presence, and the values the gate needs. -/
structure Controls where
  first : Option ℤ := none
  last : Option ℤ := none
  after : Bool := false
  before : Bool := false
  orderBy : Bool := false
  fields : Bool := false
  search : Bool := false
  includeArchived : Bool := false
  onlyTotal : Option Bool := none
  deriving DecidableEq, Repr

/-- A selection of fields: all of them, or those of some paths. -/
inductive Projection where
  | projectAll
  | projectOnly (paths : List String)
  | projectExcept (paths : List String)
  deriving DecidableEq, Repr

/-- The projection restricts the document. -/
def Projection.narrows : Projection → Bool
  | .projectAll => false
  | .projectOnly paths | .projectExcept paths => paths ≠ []

/-- A read request as the wire carried it. -/
structure Read where
  controls : Controls := {}
  /-- The controls the surface expresses without a key. -/
  natural : List String := []
  filters : List FilterTerm := []
  orderBy : List OrderTerm := []
  fields : List String := []
  projection : Projection := .projectAll
  search : String := ""
  includeArchived : Bool := false
  after : String := ""
  before : String := ""
  deriving DecidableEq, Repr

/-- The directions an orderable leaf declares, and the field path behind it. -/
structure SortSpec where
  goPath : String
  asc : Bool
  desc : Bool

/-- The declaration admits a direction. -/
def SortSpec.allows (s : SortSpec) (desc : Bool) : Bool := if desc then s.desc else s.asc

/-- The vocabulary of an endpoint. -/
structure RequestSchema where
  filters : AssocMap String FilterSpec
  reserved : List String := []
  sortable : AssocMap String SortSpec := []

/-- The projectable paths of a response, and the fields that feed the computed ones. -/
structure ProjectionSchema where
  paths : AssocMap String String
  computed : AssocMap String (List String) := []

/-- The criteria a handler receives. -/
structure ReadCriteria where
  filter : Filter := []
  orderBy : List (String × Bool) := []
  projection : Projection := .projectAll
  limit : ℤ := 0
  after : String := ""
  before : String := ""
  backward : Bool := false
  search : String := ""
  includeArchived : Bool := false
  onlyTotal : Bool := false
  deriving DecidableEq, Repr

/-- The generic refusal of a field. -/
def schemaViolation (field : String) : Violation := { field }

/-- White space at both ends is dropped. -/
def trimSpace (cs : List Char) : List Char :=
  let space : Char → Bool := fun c => c.isWhitespace || 0x2000 ≤ c.toNat && c.toNat ≤ 0x200a ||
    c.toNat ∈ [0x0b, 0x0c, 0x85, 0xa0, 0x1680, 0x2028, 0x2029, 0x202f, 0x205f, 0x3000]
  ((cs.dropWhile space).reverse.dropWhile space).reverse

/-! ### Filters -/

variable (env : WireEnv) (c : Controls) (s : RequestSchema) (proj : Option ProjectionSchema)
  (r : Read)

/-- One filter term: its leaf must declare the operator. -/
def applyTerm (filter : Filter) (term : FilterTerm) : Except Violation Filter :=
  match s.filters.get term.path with
  | none => .error (schemaViolation term.raw)
  | some spec =>
    if term.op ∈ spec.ops then applyFilterValues env filter spec term.raw term.op term.values
    else .error (schemaViolation term.raw)

/-! ### Ordering, projection and controls -/

/-- The ordering terms as field paths; a token outside the vocabulary, a direction that is not
declared and a path named twice are refused. -/
def resolveOrdering (sortable : AssocMap String SortSpec) :
    List String → List OrderTerm → Except Violation (List (String × Bool))
  | _, [] => .ok []
  | seen, t :: terms =>
    match sortable.get t.path with
    | none => .error (schemaViolation ("orderBy[" ++ t.raw ++ "]"))
    | some spec =>
      if spec.allows t.desc ∧ t.path ∉ seen then do
        let rest ← resolveOrdering sortable (t.path :: seen) terms
        return (spec.goPath, t.desc) :: rest
      else .error (schemaViolation ("orderBy[" ++ t.raw ++ "]"))

/-- The paths selected by some tokens; the sources of a computed field stand for it. -/
def projectionPaths (proj : Option ProjectionSchema) :
    List String → Except Violation (List String × List String)
  | [] => .ok ([], [])
  | token :: tokens =>
    let t := ofList (trimSpace token.toList)
    if t = "" then projectionPaths proj tokens
    else do
      let paths ← match proj with
        | none => .ok [t]
        | some schema =>
          match schema.paths.get t with
          | none => .error (schemaViolation ("fields[" ++ t ++ "]"))
          | some docPath => .ok ((schema.computed.get t).getD [docPath])
      let (rest, wire) ← projectionPaths proj tokens
      return (paths ++ rest, t :: wire)

/-- The projection of some tokens and the tokens themselves. -/
def parseProjection (tokens : List String) : Except Violation (Projection × List String) := do
  let (paths, wire) ← projectionPaths proj tokens
  return (if paths = [] then .projectAll else .projectOnly paths, wire)

/-- The controls of a request that shape a page, with their keys. -/
def Controls.pageShaping : List (String × Bool) :=
  [("fields", c.fields), ("orderBy", c.orderBy), ("first", c.first.isSome),
    ("last", c.last.isSome), ("after", c.after), ("before", c.before)]

/-- The controls of a request in the order of the gate. -/
def Controls.present : List (String × Bool) :=
  [("first", c.first.isSome), ("last", c.last.isSome), ("after", c.after), ("before", c.before),
    ("orderBy", c.orderBy), ("fields", c.fields), ("search", c.search),
    ("includeArchived", c.includeArchived), ("onlyTotal", c.onlyTotal.isSome)]

/-- The fields of the violations of the controls: undeclared ones, sizes that are not positive,
both directions at once, and a page shaped where only the total is asked for. -/
def validateControls (reserved : List String) (c : Controls) (natural : List String) :
    List String :=
  let undeclared := c.present.filterMap fun p =>
    if p.2 ∧ p.1 ∉ natural ∧ p.1 ∉ reserved then some p.1 else none
  let sizes := (if c.first.any (· ≤ 0) then ["first"] else []) ++
    if c.last.any (· ≤ 0) then ["last"] else []
  let direction :=
    if (c.first.isSome || c.after) && (c.last.isSome || c.before) then
      [if c.last.isSome then "last" else "before"]
    else []
  let conflicts := if c.onlyTotal = some true then
      c.pageShaping.filterMap fun p => if p.2 then some ("onlyTotal[" ++ p.1 ++ "]") else none
    else []
  undeclared ++ sizes ++ direction ++ conflicts

/-- The cursor decodes, with one key more than the ordering has terms. -/
def cursorFitsCriteria (cursor : String) (crit : ReadCriteria) : Bool :=
  match env.decodeCursor cursor with
  | none => false
  | some k => k = crit.orderBy.length + 1

/-- Refuse a cursor that does not fit. -/
def checkCursor (crit : ReadCriteria) (key value : String) : Except Violation Unit :=
  if value = "" ∨ cursorFitsCriteria env value crit then .ok () else .error (schemaViolation key)

/-- The ordering; its vocabulary is consulted only where the control is declared. -/
def criteriaOrder : Except Violation (List (String × Bool)) :=
  if "orderBy" ∈ s.reserved then resolveOrdering s.sortable [] r.orderBy else .ok []

/-- The projection with the tokens selected; tokens win over a selection of the surface. -/
def criteriaProjection : Except Violation (Projection × List String) :=
  if r.fields ≠ [] then parseProjection proj r.fields
  else .ok (if r.projection.narrows then r.projection else .projectAll, [])

/-- Refuse the first violation of the controls. -/
def checkControls : Except Violation Unit :=
  match validateControls s.reserved r.controls r.natural with
  | field :: _ => .error (schemaViolation field)
  | [] => .ok ()

/-- **The criteria of a request**, with the tokens selected, or the first violation. -/
def buildCriteria : Except Violation (ReadCriteria × List String) := do
  let filter ← r.filters.foldlM (applyTerm env s) []
  let orderBy ← criteriaOrder s r
  let projection ← criteriaProjection proj r
  checkControls s r
  let crit : ReadCriteria :=
    { filter, orderBy
      projection := projection.1
      limit := r.controls.last.getD (r.controls.first.getD 0)
      backward := r.controls.last.isSome
      after := r.after
      before := r.before
      search := r.search
      includeArchived := r.includeArchived
      onlyTotal := r.controls.onlyTotal.getD false }
  checkCursor env crit "after" crit.after
  checkCursor env crit "before" crit.before
  return (crit, projection.2)

/-! ### Decoding -/

/-- Split a comma-separated value, trimming each entry and dropping the empty ones. -/
def splitList (val : String) : List String :=
  (((val.toList.splitOn ',').map trimSpace).filter (· ≠ [])).map ofList

/-- The leaf and the operator of a key: a declared key is one leaf whatever it ends in. -/
def parseKeyAgainstSchema (key : String) (s : RequestSchema) : Option (String × Operator) :=
  if key ∈ s.filters.keys then some (key, .opEq)
  else
    match (key.toList.splitOn '.').reverse with
    | op :: rest@(_ :: _) =>
      let wirePath := ofList (intercalate ['.'] rest.reverse)
      match knownOps.get (ofList op) with
      | some op => if wirePath ∈ s.filters.keys then some (wirePath, op) else none
      | none => none
    | _ => none

/-- The term of one filter key of a query string: a list operator takes the entries of the value,
every other the value as it is. -/
def decodeFilter (key val : String) : Except Violation FilterTerm :=
  match parseKeyAgainstSchema key s with
  | none => .error (schemaViolation key)
  | some (path, op) =>
    .ok { path, op, raw := key, values := if operatorTakesList op then splitList val else [val] }

/-- The ordering terms of a value. -/
def decodeOrderTokens (val : String) : List OrderTerm :=
  (splitList val).map fun token =>
    match token.toList with
    | '-' :: path => { path := ofList path, desc := true, raw := token }
    | _ => { path := token, raw := token }

/-- A boolean control is exactly `true` or `false`. -/
def parseControlBool : String → Option Bool
  | "true" => some true
  | "false" => some false
  | _ => none

/-- Fail on the key where a value does not parse. -/
def orReject {α : Type} (key : String) : Option α → Except Violation α
  | some a => .ok a
  | none => .error (schemaViolation key)

/-- The keys of the reserved controls. -/
def controlKeys : List String :=
  ["first", "last", "after", "before", "orderBy", "fields", "search", "includeArchived",
    "onlyTotal"]

/-- One control of a query string. -/
def decodeControl (key val : String) : Except Violation Read :=
  match key with
  | "first" => do
    let n ← orReject key (Decimal.parseInt 64 val)
    return { r with controls := { r.controls with first := some n } }
  | "last" => do
    let n ← orReject key (Decimal.parseInt 64 val)
    return { r with controls := { r.controls with last := some n } }
  | "after" => .ok { r with controls := { r.controls with after := true }, after := val }
  | "before" => .ok { r with controls := { r.controls with before := true }, before := val }
  | "orderBy" => .ok
    { r with
      controls := { r.controls with orderBy := true }
      orderBy := r.orderBy ++ decodeOrderTokens val }
  | "fields" => .ok
    { r with controls := { r.controls with fields := true }, fields := r.fields ++ splitList val }
  | "search" => .ok { r with controls := { r.controls with search := true }, search := val }
  | "includeArchived" => do
    let b ← orReject key (parseControlBool val)
    return { r with
      controls := { r.controls with includeArchived := true }
      includeArchived := b }
  | "onlyTotal" => do
    let b ← orReject key (parseControlBool val)
    return { r with controls := { r.controls with onlyTotal := some b } }
  | _ => .ok r

/-- One key of a query string; a reserved spelling that is declared as a filter leaf keeps its
filter meaning. -/
def decodePair (ignored : List String) (r : Read) (pair : String × String) :
    Except Violation Read :=
  if pair.1 ∈ controlKeys ∧ pair.1 ∉ s.filters.keys then
    if pair.1 ∈ ignored then .ok r else decodeControl r pair.1 pair.2
  else do
    let term ← decodeFilter s pair.1 pair.2
    return { r with filters := r.filters ++ [term] }

/-- The request of a query string. -/
def decodeQuery (ignored : List String) (query : List (String × String)) : Except Violation Read :=
  query.foldlM (decodePair s ignored) {}

/-! ### What accepted criteria select -/

section

variable {env : WireEnv} {s : RequestSchema} {proj : Option ProjectionSchema} {r : Read}

/-- A term asks for a document. -/
def FilterTerm.denotes (env : WireEnv) (s : RequestSchema) (t : FilterTerm) (d : Record) : Bool :=
  match s.filters.get t.path with
  | some spec => Queryschema.denotes env spec.leaf t.op t.values (d spec.docPath)
  | none => true

variable {filter filter' : Filter} {t : FilterTerm} {terms : List FilterTerm}

theorem applyTerm_selects (h : applyTerm env s filter t = .ok filter') (d : Record) :
    selects filter' d = (selects filter d && (t.values.isEmpty || t.denotes env s d)) := by
  rw [applyTerm] at h
  rw [FilterTerm.denotes]
  cases hspec : s.filters.get t.path with
  | none => simp [hspec] at h
  | some spec =>
    simp only [hspec] at h
    split_ifs at h
    exact applyFilterValues_selects h d

/-- **All terms**, by induction on them: each with an operand has narrowed the selection. -/
theorem foldlM_applyTerm_selects (h : terms.foldlM (applyTerm env s) filter = .ok filter')
    (d : Record) :
    selects filter' d =
      (selects filter d && terms.all fun t => t.values.isEmpty || t.denotes env s d) := by
  induction terms generalizing filter with
  | nil =>
    cases h
    simp
  | cons t terms ih =>
    rw [foldlM_cons, bind_ok] at h
    obtain ⟨filter1, h1, h⟩ := h
    rw [ih h, applyTerm_selects h1, all_cons, Bool.and_assoc]

/-- The filter of accepted criteria comes from the terms alone, the rest from the request. -/
theorem buildCriteria_ok {crit : ReadCriteria} {wire : List String}
    (h : buildCriteria env s proj r = .ok (crit, wire)) :
    r.filters.foldlM (applyTerm env s) [] = .ok crit.filter ∧
      criteriaOrder s r = .ok crit.orderBy ∧ crit.search = r.search ∧
      crit.includeArchived = r.includeArchived := by
  obtain ⟨filter, hfilter, h⟩ := bind_ok.1 h
  obtain ⟨orderBy, horder, h⟩ := bind_ok.1 h
  obtain ⟨projection, -, h⟩ := bind_ok.1 h
  obtain ⟨_, -, h⟩ := bind_ok.1 h
  obtain ⟨_, -, h⟩ := bind_ok.1 h
  obtain ⟨_, -, h⟩ := bind_ok.1 h
  cases h
  exact ⟨hfilter, horder, rfl, rfl⟩

theorem buildCriteria_selects {crit : ReadCriteria} {wire : List String}
    (h : buildCriteria env s proj r = .ok (crit, wire)) (d : Record) :
    selects crit.filter d = true ↔ ∀ t ∈ r.filters, t.values ≠ [] → t.denotes env s d = true := by
  rw [foldlM_applyTerm_selects (buildCriteria_ok h).1]
  simp only [selects, all_nil, Bool.true_and, all_eq_true, Bool.or_eq_true, List.isEmpty_iff]
  exact forall₂_congr fun t _ => or_iff_not_imp_left

/-- The term asks for membership in a list of no operand. -/
def FilterTerm.asksNothing (t : FilterTerm) : Bool :=
  t.values.isEmpty && (t.op = .opIn || t.op = .opIIn)

theorem FilterTerm.denotes_of_nil (hspec : (s.filters.get t.path).isSome) (h : t.values = [])
    (d : Record) : t.denotes env s d = !t.asksNothing := by
  obtain ⟨spec, hspec⟩ := Option.isSome_iff_exists.1 hspec
  simp only [denotes, hspec, asksNothing, h, isEmpty_nil, Bool.true_and]
  cases t.op <;> simp [Queryschema.denotes]

theorem exists_applyTerm_of_foldlM (h : terms.foldlM (applyTerm env s) filter = .ok filter')
    (ht : t ∈ terms) : ∃ f f', applyTerm env s f t = .ok f' := by
  induction terms generalizing filter with
  | nil => cases ht
  | cons t' terms ih =>
    rw [foldlM_cons, bind_ok] at h
    obtain ⟨filter1, h1, h⟩ := h
    rcases mem_cons.1 ht with rfl | ht
    · exact ⟨filter, filter1, h1⟩
    · exact ih h ht

theorem isSome_of_applyTerm (h : applyTerm env s filter t = .ok filter') :
    (s.filters.get t.path).isSome := by
  rw [applyTerm] at h
  cases hspec : s.filters.get t.path with
  | none => simp [hspec] at h
  | some spec => rfl

/-- The filter selects exactly what all terms ask for. -/
def Enforced (env : WireEnv) (s : RequestSchema) (r : Read) (crit : ReadCriteria) : Prop :=
  ∀ d, selects crit.filter d = true ↔ ∀ t ∈ r.filters, t.denotes env s d = true

/-- **Every accepted term is enforced** exactly if no term asks for membership in an empty list, or
the terms with an operand select nothing anyway. -/
theorem enforced_iff {crit : ReadCriteria} {wire : List String}
    (h : buildCriteria env s proj r = .ok (crit, wire)) :
    Enforced env s r crit ↔
      (∀ t ∈ r.filters, t.asksNothing = false) ∨
      ∀ d, ¬ ∀ t ∈ r.filters, t.values ≠ [] → t.denotes env s d = true := by
  have hselects := buildCriteria_selects h
  have hspec : ∀ t ∈ r.filters, (s.filters.get t.path).isSome := fun t ht =>
    have ⟨_, _, ht⟩ := exists_applyTerm_of_foldlM (buildCriteria_ok h).1 ht
    isSome_of_applyTerm ht
  constructor
  · intro henf
    by_cases hnone : ∀ t ∈ r.filters, t.asksNothing = false
    · exact .inl hnone
    · simp only [not_forall, Bool.not_eq_false] at hnone
      obtain ⟨t, ht, hnothing⟩ := hnone
      refine .inr fun d hd => ?_
      have hall := (henf d).1 ((hselects d).2 hd) t ht
      have hnil : t.values = [] := by
        simp only [FilterTerm.asksNothing, Bool.and_eq_true, List.isEmpty_iff] at hnothing
        exact hnothing.1
      rw [FilterTerm.denotes_of_nil (hspec t ht) hnil, hnothing] at hall
      cases hall
  · rintro (hnone | hempty) d
    · rw [hselects]
      refine ⟨fun hd t ht => ?_, fun hd t ht _ => hd t ht⟩
      by_cases hnil : t.values = []
      · rw [FilterTerm.denotes_of_nil (hspec t ht) hnil, hnone t ht]
        rfl
      · exact hd t ht hnil
    · rw [hselects]
      exact ⟨fun hd => absurd hd (hempty d), fun hd t ht _ => hd t ht⟩

end

/-- A standard library that parses no date, duration, fraction or identity. -/
def plainWire : WireEnv where
  parseTime _ := none
  parseDuration _ := none
  parseFloat _ := none
  isUUID _ := false
  decodeCursor _ := none

/-- An endpoint that filters by code. -/
def codeSchema : RequestSchema where
  filters := [("code", { ops := [.opEq, .opIn, .opNin], docPath := "Code", leaf := .string })]

/-- The request of a code list beside an empty exclusion. -/
def twoTerms : Read where
  filters :=
    [{ path := "code", op := .opIn, values := ["a", "b"], raw := "code.in" },
      { path := "code", op := .opNin, values := [], raw := "code.nin" }]

/-- Two terms on one field. -/
theorem enforced_twoTerms :
    decodeQuery codeSchema [] [("code.in", "a, b"), ("code.nin", "")] = .ok twoTerms ∧
    ∃ crit wire, buildCriteria plainWire codeSchema none twoTerms = .ok (crit, wire) ∧
      Enforced plainWire codeSchema twoTerms crit := by
  obtain ⟨p, hp⟩ : ∃ p, buildCriteria plainWire codeSchema none twoTerms = .ok p := ⟨_, rfl⟩
  exact ⟨by decide +kernel, p.1, p.2, hp, (enforced_iff hp).2 (.inl (by decide))⟩

/-- The request of a code list without a code. -/
def emptyList : Read where
  filters := [{ path := "code", op := .opIn, values := [], raw := "code.in" }]

/-- A list of no code selects every document. -/
theorem not_enforced_emptyList :
    decodeQuery codeSchema [] [("code.in", ",")] = .ok emptyList ∧
    ∃ crit wire, buildCriteria plainWire codeSchema none emptyList = .ok (crit, wire) ∧
      ¬ Enforced plainWire codeSchema emptyList crit := by
  refine ⟨by decide +kernel, _, _, rfl, fun h => ?_⟩
  have hasked := (h fun _ => [.str "a"]).1 rfl _ mem_cons_self
  exact absurd hasked (by decide)

end Omnicore.Queryschema
