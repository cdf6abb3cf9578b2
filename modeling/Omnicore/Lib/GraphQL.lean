import Mathlib.Data.List.Nodup
import Omnicore.Lib.Decimal
import Omnicore.Lib.Json

/-!
# GraphQL documents and input values

Documents with their variables, the input types of a schema, and the rules that hold a literal to
its type.  Variables are substituted in literals before these reach a resolver; a literal that obeys
the rules stays within its type exactly if every variable in it does so at its own place.

## Main definitions

* `TypeRef`, `TypeDef`, `InputValue` : types, and the fields and arguments that have them.
* `Literal`, `Document` : documents as the parser returns them.
* `conforms` : a value is within a type.
* `valid` : a literal obeys the rules of a type, whatever its variables stand for.
* `uses` : the places of variables in a literal, with their types.

## Main results

* `conforms_value_iff` : a valid literal conforms exactly if its variables do at their places.
-/

namespace GraphQL

open List Option

/-! ### Types -/

/-- A type, nullable or not. -/
inductive TypeRef where
  | named (name : String) (nonNull : Bool)
  | list (elem : TypeRef) (nonNull : Bool)
  deriving DecidableEq, Repr

namespace TypeRef

/-- The type excludes null. -/
def nonNull : TypeRef → Bool
  | named _ b => b
  | list _ b => b

/-- The named type inside all lists. -/
def base : TypeRef → String
  | named n _ => n
  | list elem _ => elem.base

end TypeRef

/-- An input field of an input object, or an argument of a field. -/
structure InputValue where
  name : String
  type : TypeRef
  default : Option Json := none

/-- It has to be given. -/
def InputValue.required (f : InputValue) : Bool := f.type.nonNull && f.default.isNone

/-- A named type that can be an input. -/
inductive TypeDef where
  | int
  | float
  | string
  | boolean
  | id
  /-- A scalar with no rules of its own. -/
  | scalar
  | enum (values : List String)
  | input (fields : List InputValue)

/-! ### Documents -/

/-- A value as it is written in a document. -/
inductive Literal where
  | var (name : String)
  | null
  | int (text : String)
  | float (text : String)
  | str (s : String)
  | bool (b : Bool)
  | enum (name : String)
  | list (elems : List Literal)
  | object (fields : List (String × Literal))

open Literal

/-- An element of a selection set. -/
inductive Selection where
  | field (responseAlias name : String) (arguments : List (String × Literal))
      (selections : List Selection)
  | inlineFragment (typeCondition : String) (selections : List Selection)
  | fragmentSpread (name : String)

/-- A named fragment. -/
structure Fragment where
  name : String
  typeCondition : String
  selectionSet : List Selection

inductive OperationKind where
  | query
  | mutation
  | subscription
  deriving DecidableEq, Repr

/-- A variable of an operation. -/
structure VariableDefinition where
  name : String
  type : TypeRef
  default : Option Json := none

structure Operation where
  kind : OperationKind
  name : String := ""
  variableDefinitions : List VariableDefinition := []
  selectionSet : List Selection

structure Document where
  operations : List Operation
  fragments : List Fragment := []

/-! ### Values within a type -/

variable (types : String → Option TypeDef)

/-- The rules of a named type for a value that is neither null, a list nor an object. -/
def acceptsLeaf (name : String) (j : Json) : Bool :=
  match types name, j with
  | some .int, .num text => (Decimal.parseInt 64 text).isSome
  | some .float, .num _ => true
  | some .string, .str _ => true
  | some .boolean, .bool _ => true
  | some .id, .str _ => true
  | some .id, .num text => (Decimal.parseInt 64 text).isSome
  | some .scalar, _ => true
  | some (.enum values), .str s => s ∈ values
  | _, _ => false

/-- A scalar without rules takes lists and objects as well. -/
def acceptsAll (name : String) : Bool :=
  match types name with
  | some .scalar => true
  | _ => false

/-- The input fields of a named type. -/
def fieldsOf (name : String) : Option (List InputValue) :=
  match types name with
  | some (.input fields) => some fields
  | _ => none

/-- Every field that has to be given is among the names. -/
def hasRequired (fields : List InputValue) (names : List String) : Bool :=
  fields.all fun f => !f.required || f.name ∈ names

mutual

/-- The value is within the type.  A value that is not a list stands for a list of one where a list
is expected. -/
def conforms : Json → TypeRef → Bool
  | .null, τ => !τ.nonNull
  | .arr xs, .list elem _ => conformsAll xs elem
  | .arr _, .named n _ => acceptsAll types n
  | .obj ms, τ =>
    match fieldsOf types τ.base with
    | some fields => conformsFields ms fields && hasRequired fields (ms.map Prod.fst)
    | none => acceptsAll types τ.base
  | .bool b, τ => acceptsLeaf types τ.base (.bool b)
  | .num text, τ => acceptsLeaf types τ.base (.num text)
  | .str s, τ => acceptsLeaf types τ.base (.str s)

/-- Every element is within the type. -/
def conformsAll : List Json → TypeRef → Bool
  | [], _ => true
  | x :: xs, τ => conforms x τ && conformsAll xs τ

/-- Every member is a field, and within its type. -/
def conformsFields : List (String × Json) → List InputValue → Bool
  | [], _ => true
  | (k, j) :: ms, fields =>
    (match fields.find? (·.name = k) with
      | some f => conforms j f.type
      | none => false) && conformsFields ms fields

end

mutual

/-- The literal obeys the rules of the type; a variable is not looked at. -/
def valid : Literal → TypeRef → Bool
  | .var _, _ => true
  | .null, τ => !τ.nonNull
  | .list xs, .list elem _ => validAll xs elem
  | .list _, .named n _ => acceptsAll types n
  | .object ms, τ =>
    match fieldsOf types τ.base with
    | some fields => validFields ms fields && hasRequired fields (ms.map Prod.fst)
    | none => acceptsAll types τ.base
  | .int text, τ => acceptsLeaf types τ.base (.num text)
  | .float text, τ => acceptsLeaf types τ.base (.num text)
  | .str s, τ =>
    match types τ.base with
    | some (.enum _) => false
    | _ => acceptsLeaf types τ.base (.str s)
  | .bool b, τ => acceptsLeaf types τ.base (.bool b)
  | .enum name, τ =>
    match types τ.base with
    | some (.enum _) | some .scalar => acceptsLeaf types τ.base (.str name)
    | _ => false

/-- Every element obeys the rules of the type. -/
def validAll : List Literal → TypeRef → Bool
  | [], _ => true
  | x :: xs, τ => valid x τ && validAll xs τ

/-- Every member is a field, and obeys the rules of its type. -/
def validFields : List (String × Literal) → List InputValue → Bool
  | [], _ => true
  | (k, v) :: ms, fields =>
    (match fields.find? (·.name = k) with
      | some f => valid v f.type
      | none => false) && validFields ms fields

end

/-! ### Variables -/

mutual

/-- The value of a literal whose variables stand for values. -/
def Literal.value (σ : String → Json) : Literal → Json
  | .var x => σ x
  | .null => .null
  | .int text => .num text
  | .float text => .num text
  | .str s => .str s
  | .bool b => .bool b
  | .enum name => .str name
  | .list xs => .arr (values σ xs)
  | .object ms => .obj (members σ ms)

/-- The values of the elements. -/
def Literal.values (σ : String → Json) : List Literal → List Json
  | [] => []
  | x :: xs => x.value σ :: values σ xs

/-- The values of the members. -/
def Literal.members (σ : String → Json) : List (String × Literal) → List (String × Json)
  | [] => []
  | (k, v) :: ms => (k, v.value σ) :: members σ ms

end

mutual

/-- The variables in a literal, each with the type of its place. -/
def uses : Literal → TypeRef → List (String × TypeRef)
  | .var x, τ => [(x, τ)]
  | .list xs, .list elem _ => usesAll xs elem
  | .object ms, τ =>
    match fieldsOf types τ.base with
    | some fields => usesFields ms fields
    | none => []
  | _, _ => []

/-- The variables in the elements. -/
def usesAll : List Literal → TypeRef → List (String × TypeRef)
  | [], _ => []
  | x :: xs, τ => uses x τ ++ usesAll xs τ

/-- The variables in the members. -/
def usesFields : List (String × Literal) → List InputValue → List (String × TypeRef)
  | [], _ => []
  | (k, v) :: ms, fields =>
    (match fields.find? (·.name = k) with
      | some f => uses v f.type
      | none => []) ++ usesFields ms fields

end

theorem Literal.map_fst_members (σ : String → Json) (ms : List (String × Literal)) :
    (members σ ms).map Prod.fst = ms.map Prod.fst := by
  induction ms with
  | nil => rfl
  | cons m ms ih => rw [members, map_cons, map_cons, ih]

/-- Every variable has a value within the type of its place. -/
def Fits (σ : String → Json) (us : List (String × TypeRef)) : Prop :=
  ∀ u ∈ us, conforms types (σ u.1) u.2 = true

variable {σ : String → Json} {vars : String → Option Json} {vdefs : List VariableDefinition}
  {args : List (String × Literal)}

theorem fits_append {us us' : List (String × TypeRef)} :
    Fits types σ (us ++ us') ↔ Fits types σ us ∧ Fits types σ us' := by
  simp [Fits, or_imp, forall_and]

theorem fits_nil : Fits types σ [] ↔ True := by simp [Fits]

variable {types}

mutual

variable {σ : String → Json}

/-- **A valid literal conforms exactly if its variables do**, each at its own place. -/
theorem conforms_value_iff :
    ∀ {v : Literal} {τ : TypeRef}, valid types v τ = true →
      (conforms types (v.value σ) τ = true ↔ Fits types σ (uses types v τ))
  | .var x, τ, _ => by simp [value, uses, Fits]
  | .null, τ, h => by simpa [value, uses, fits_nil, conforms, valid] using h
  | .int text, τ, h => by simpa [value, uses, fits_nil, conforms, valid] using h
  | .float text, τ, h => by simpa [value, uses, fits_nil, conforms, valid] using h
  | .bool b, τ, h => by simpa [value, uses, fits_nil, conforms, valid] using h
  | .str s, τ, h => by
    rw [valid] at h
    split at h
    · cases h
    · simpa [value, uses, fits_nil, conforms] using h
  | .enum name, τ, h => by
    rw [valid] at h
    split at h
    · simpa [value, uses, fits_nil, conforms] using h
    · simpa [value, uses, fits_nil, conforms] using h
    · cases h
  | .list xs, .list elem _, h => by
    rw [valid] at h
    simpa [value, uses, conforms] using conformsAll_values_iff h
  | .list xs, .named n _, h => by simpa [value, uses, fits_nil, conforms, valid] using h
  | .object ms, τ, h => by
    rw [valid] at h
    rw [value, conforms, uses]
    -- Substitution keeps the names of the members, so the required fields stay present.
    cases hfields : fieldsOf types τ.base with
    | none => simpa [hfields, fits_nil] using h
    | some fields =>
      simp only [hfields, Bool.and_eq_true, map_fst_members] at h ⊢
      rw [conformsFields_members_iff h.1]
      exact and_iff_left h.2

/-- The same for the elements of a list. -/
theorem conformsAll_values_iff :
    ∀ {xs : List Literal} {τ : TypeRef}, validAll types xs τ = true →
      (conformsAll types (values σ xs) τ = true ↔ Fits types σ (usesAll types xs τ))
  | [], τ, _ => by simp [values, conformsAll, usesAll, fits_nil]
  | x :: xs, τ, h => by
    rw [validAll, Bool.and_eq_true] at h
    rw [values, conformsAll, usesAll, fits_append, Bool.and_eq_true,
      conforms_value_iff h.1, conformsAll_values_iff h.2]

/-- The same for the members of an object. -/
theorem conformsFields_members_iff :
    ∀ {ms : List (String × Literal)} {fields : List InputValue},
      validFields types ms fields = true →
      (conformsFields types (members σ ms) fields = true ↔
        Fits types σ (usesFields types ms fields))
  | [], fields, _ => by simp [members, conformsFields, usesFields, fits_nil]
  | (k, v) :: ms, fields, h => by
    rw [validFields, Bool.and_eq_true] at h
    rw [members, conformsFields, usesFields, fits_append, Bool.and_eq_true,
      conformsFields_members_iff h.2]
    cases hf : fields.find? (·.name = k) with
    | none => simp [hf] at h
    | some f =>
      simp only [hf] at h ⊢
      rw [conforms_value_iff h.1]

end

/-- An object within an input type has a member for every required field, within the type of a
field of that name. -/
theorem member_of_conforms {fields : List InputValue} {ms : List (String × Json)}
    (hms : conformsFields types ms fields = true)
    (hreq : hasRequired fields (ms.map Prod.fst) = true) {f : InputValue} (hf : f ∈ fields)
    (hrequired : f.required = true) :
    ∃ j, Json.member ms f.name = some j ∧ ∃ f' ∈ fields, conforms types j f'.type = true := by
  have hall : ∀ (ms : List (String × Json)), conformsFields types ms fields = true →
      ∀ m ∈ ms, ∃ f' ∈ fields, conforms types m.2 f'.type = true := by
    intro ms
    induction ms with
    | nil => exact fun _ => nofun
    | cons m ms ih =>
      intro h m hm
      rw [conformsFields, Bool.and_eq_true] at h
      rcases mem_cons.1 hm with rfl | hm
      · split at h
        · rename_i f' hf'
          exact ⟨f', mem_of_find?_eq_some hf', h.1⟩
        · cases h.1
      · exact ih h.2 m hm
  have hname : f.name ∈ ms.map Prod.fst := by
    have := all_eq_true.1 hreq f hf
    simpa [hrequired] using this
  obtain ⟨m, hm, hk⟩ := mem_map.1 hname
  have hsome : (ms.reverse.find? (·.1 = f.name)).isSome := by
    rw [find?_isSome]
    exact ⟨m, mem_reverse.2 hm, by simpa using hk⟩
  obtain ⟨m', hm'⟩ := isSome_iff_exists.1 hsome
  refine ⟨m'.2, by rw [Json.member, hm', map_some], ?_⟩
  exact hall ms hms m' (mem_reverse.1 (mem_of_find?_eq_some hm'))

/-- A value within a type that excludes null is not null. -/
theorem ne_null_of_conforms {j : Json} {τ : TypeRef} (h : conforms types j τ = true)
    (hτ : τ.nonNull = true) : j ≠ .null := by
  rintro rfl
  simp [conforms, hτ] at h

/-! ### Arguments -/

/-- What a variable stands for inside a literal: its value, its default, or null. -/
def standsFor (vars : String → Option Json) (defs : List VariableDefinition) (x : String) : Json :=
  ((vars x).or ((defs.find? (·.name = x)).bind VariableDefinition.default)).getD .null

/-- The literal given for an argument. -/
def argument (args : List (String × Literal)) (name : String) : Option Literal :=
  (args.find? (·.1 = name)).map Prod.snd

/-- The value a literal gives to an argument: a variable without a value leaves the argument
out. -/
def givenValue (vars : String → Option Json) (vdefs : List VariableDefinition) :
    Literal → Option Json
  | .var x => vars x
  | v => some (v.value (standsFor vars vdefs))

/-- The value of an argument: the one given, or else its default. -/
def argumentValue (vars : String → Option Json) (vdefs : List VariableDefinition)
    (args : List (String × Literal)) (d : InputValue) : Option Json :=
  ((argument args d.name).bind (givenValue vars vdefs)).or d.default

/-- The arguments a resolver is called with. -/
def argumentMap (vars : String → Option Json) (vdefs : List VariableDefinition)
    (defs : List InputValue) (args : List (String × Literal)) : List (String × Json) :=
  defs.filterMap fun d => (argumentValue vars vdefs args d).map (d.name, ·)

/-- A field that can be selected, its arguments told apart by their names. -/
structure FieldDefinition where
  name : String
  arguments : List InputValue
  names_nodup : (arguments.map InputValue.name).Nodup

/-- Each argument has the value computed for it. -/
theorem member_argumentMap (f : FieldDefinition) {d : InputValue} (hd : d ∈ f.arguments) :
    Json.member (argumentMap vars vdefs f.arguments args) d.name =
      argumentValue vars vdefs args d := by
  have hown : ∀ p ∈ argumentMap vars vdefs f.arguments args, p.1 = d.name →
      argumentValue vars vdefs args d = some p.2 := by
    intro p hp hname
    obtain ⟨d', hd', hp⟩ := mem_filterMap.1 hp
    obtain ⟨j, hj, rfl⟩ := map_eq_some_iff.1 hp
    rwa [← inj_on_of_nodup_map f.names_nodup hd' hd hname]
  rw [Json.member]
  cases hfind : (argumentMap vars vdefs f.arguments args).reverse.find? (·.1 = d.name) with
  | some p =>
    rw [hown p (mem_reverse.1 (mem_of_find?_eq_some hfind))
      (by simpa using find?_some hfind), map_some]
  | none =>
    cases hv : argumentValue vars vdefs args d with
    | none => rfl
    | some j =>
      have hmem : (d.name, j) ∈ argumentMap vars vdefs f.arguments args :=
        mem_filterMap.2 ⟨d, hd, by rw [hv, map_some]⟩
      simpa using find?_eq_none.1 hfind _ (mem_reverse.2 hmem)

/-- The value of an argument is within its type, and given where the type excludes null. -/
def conformsArgument (types : String → Option TypeDef) (d : InputValue) : Option Json → Bool
  | some j => conforms types j d.type
  | none => !d.type.nonNull

/-- The rules for the arguments of a field: those that have to be given are, and each obeys the
rules of its type. -/
def argumentsValid (types : String → Option TypeDef) (defs : List InputValue)
    (args : List (String × Literal)) : Bool :=
  defs.all fun d =>
    match argument args d.name with
    | none => !d.required
    | some v => valid types v d.type

/-- The variables of an argument have values within the types of their places.  A variable that is
the whole argument may be left out where the argument may. -/
def ArgumentFits (types : String → Option TypeDef) (vars : String → Option Json)
    (vdefs : List VariableDefinition) (d : InputValue) : Literal → Prop
  | .var x =>
    match vars x with
    | some j => conforms types j d.type = true
    | none => d.required = false
  | v => Fits types (standsFor vars vdefs) (uses types v d.type)

/-- An argument that obeys the rules conforms exactly if its variables fit. -/
theorem conformsArgument_iff {defs : List InputValue} {d : InputValue}
    (hvalid : argumentsValid types defs args = true) (hd : d ∈ defs)
    (hdefault : ∀ j, d.default = some j → conforms types j d.type = true) :
    conformsArgument types d (argumentValue vars vdefs args d) = true ↔
      ∀ v, argument args d.name = some v → ArgumentFits types vars vdefs d v := by
  have hout : conformsArgument types d d.default = true ↔ d.required = false := by
    cases hdef : d.default with
    | some j => simp [conformsArgument, InputValue.required, hdef, hdefault j hdef]
    | none => simp [conformsArgument, InputValue.required, hdef]
  have hrule := all_eq_true.1 hvalid d hd
  rw [argumentValue]
  cases harg : argument args d.name with
  | none =>
    have hfree : d.required = false := by simpa [harg] using hrule
    simpa using hout.2 hfree
  | some v =>
    have hv : valid types v d.type = true := by simpa [harg] using hrule
    rw [bind_some]
    simp only [some.injEq, forall_eq']
    cases v with
    | var x =>
      rw [givenValue, ArgumentFits]
      cases vars x with
      | none => simpa using hout
      | some j => rfl
    | _ => exact conforms_value_iff hv

end GraphQL
