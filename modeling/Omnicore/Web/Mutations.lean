import Omnicore.Web.BodyBinding
import Omnicore.Web.GraphQLExecute

/-!
# Mutations and the types of their arguments

A mutation declares its arguments in the schema: an id, and an input object reflected from the
request struct, all of whose fields are required where the handler asks for the full body.  The
validator holds literals to these types; the values of variables are substituted by the executor,
which holds them to nothing.

## Main definitions

* `inputObject`, `schemaOf` : the generated input types and the schema.
* `decodeInput`, `resolverOf` : how a mutation reads its arguments.
* `CallConforms` : a resolver is called within the declared types.

## Main results

* `calls_conform_iff` : every call conforms exactly if the variables fit their places, and then a
  mutation that asks for the full body has every field.
-/

namespace Omnicore.Graphql

open GraphQL Web List AssocMap Option Json

/-! ### Input types -/

/-- A Go type as the schema tells them apart. -/
inductive GoType where
  | string
  | bool
  | int
  | uint8
  | float
  | time
  | id
  | struct (name : String)
  | slice (elem : GoType)
  | pointer (elem : GoType)
  | other
  deriving DecidableEq, Repr

/-- The types behind names: those of pointers and slices, and the structs. -/
structure GoTypes where
  elem : String → GoType
  structs : String → StructType

variable (G : GoTypes)

/-- The type of a field. -/
def GoTypes.ofKind : FieldKind → GoType
  | .string => .string
  | .int _ => .int
  | .uint 8 => .uint8
  | .uint _ => .int
  | .float _ => .float
  | .bool => .bool
  | .uuid | .domainID => .id
  | .pointer typeName => .pointer (G.elem typeName)
  | .list typeName => .slice (G.elem typeName)
  | .struct typeName => if typeName = "time.Time" then .time else .struct typeName
  | .other _ => .other

/-- The type behind all pointers. -/
def GoType.deref : GoType → GoType
  | pointer elem => elem.deref
  | t => t

/-- The name of a nested input type. -/
def inputName (typeName : String) : String :=
  let cs := typeName.toList
  let bare := if "Request".toList.isSuffixOf cs then cs.take (cs.length - 7) else cs
  String.ofList (bare ++ "Input".toList)

/-- The name of a type made for a root field. -/
def rootTypeName (field suffix : String) : String :=
  match field.toList with
  | [] => suffix
  | c :: cs => String.ofList (c.toUpper :: cs ++ suffix.toList)

/-- The type of an input field; a slice of bytes is a text, and so is what has no type of its
own. -/
def inputTypeRef : GoType → TypeRef
  | .string | .other => .named "String" false
  | .bool => .named "Boolean" false
  | .int | .uint8 => .named "Int" false
  | .float => .named "Float" false
  | .time => .named "DateTime" false
  | .id => .named "ID" false
  | .struct name => .named (inputName name) false
  | .pointer elem => inputTypeRef elem
  | .slice elem =>
    if elem.deref = .uint8 then .named "String" false else .list (inputTypeRef elem) false

/-- The struct behind pointers and slices. -/
def GoType.structName : GoType → Option String
  | struct name => some name
  | pointer elem => elem.structName
  | slice elem => elem.structName
  | _ => none

/-- The fields of a struct that are part of a body. -/
def bodyFields (t : StructType) : List StructField :=
  t.fields.filter fun f =>
    f.embedding ≠ .struct && f.exported && f.pathTag = "" && f.queryTag = "" && f.jsonTag ≠ "-"

variable (f : StructField)

/-- A field is required where the full body is, and otherwise where it can be neither null nor
left out. -/
def requiredMark (strict : Bool) : Bool :=
  strict ||
    !(match f.kind with
      | .pointer _ => true
      | _ => false) &&
    !(f.jsonTag.toList.tails.any (",omitempty".toList.isPrefixOf ·))

/-- A type with its mark. -/
def TypeRef.mark (τ : TypeRef) (b : Bool) : TypeRef :=
  match τ with
  | .named n _ => .named n b
  | .list elem _ => .list elem b

/-- An input field. -/
def inputField (strict : Bool) (f : StructField) : InputValue where
  name := f.wireName
  type := TypeRef.mark (inputTypeRef (G.ofKind f.kind)) (requiredMark f strict)

/-- The input types made so far. -/
abbrev Defs := AssocMap String (List InputValue)

/-- Define an input type and those it reaches, unless one of its name is there.  The name is taken
before the fields are walked, so a type that contains itself ends. -/
def inputObject (G : GoTypes) (strict : Bool) : ℕ → Defs → String → StructType → Defs
  | 0, defs, _, _ => defs
  | n + 1, defs, name, t =>
    if (get defs name).isSome then defs
    else
      let reached := (bodyFields t).foldl (fun defs f =>
        match (G.ofKind f.kind).structName with
        | some s => inputObject G strict n defs (inputName s) (G.structs s)
        | none => defs) (set defs name [⟨"_placeholder", .named "Boolean" false, none⟩])
      set reached name ((bodyFields t).map (inputField G strict))

theorem get_inputObject_of_isSome {G : GoTypes} {strict : Bool} {n : ℕ} {defs : Defs}
    {name : String} {t : StructType} {k : String} (hk : (get defs k).isSome) :
    get (inputObject G strict n defs name t) k = get defs k := by
  induction n generalizing defs name t with
  | zero => rfl
  | succ n ih =>
    rw [inputObject]
    split_ifs with hname
    · rfl
    · have hne : k ≠ name := by
        rintro rfl
        exact hname hk
      have hreached : ∀ (fs : List StructField) (defs' : Defs), get defs' k = get defs k →
          get (fs.foldl (fun defs f =>
            match (G.ofKind f.kind).structName with
            | some s => inputObject G strict n defs (inputName s) (G.structs s)
            | none => defs) defs') k = get defs k := by
        intro fs
        induction fs with
        | nil => exact fun _ h => h
        | cons f fs ihf =>
          intro defs' h
          rw [foldl_cons]
          refine ihf _ ?_
          split
          · rw [ih (h ▸ hk), h]
          · exact h
      exact (get_set_ne _ _ hne.symm).trans (hreached _ _ (get_set_ne _ _ hne.symm))

/-! ### Registered fields -/

/-- A field of the root types.  What a query reflects from its request is left as it is: arguments
without defaults, and the types they need. -/
inductive Registered where
  | mutationWithBody (name : String) (request : StructType) (fullBody : Bool)
  | mutationWithBodyID (name : String) (request : StructType) (fullBody : Bool)
  | mutationByID (name : String)
  | query (field : FieldDefinition) (noDefault : ∀ d ∈ field.arguments, d.default = none)
      (types : List (String × TypeDef))

open Registered

namespace Registered

/-- The name of the field. -/
def name : Registered → String
  | mutationWithBody name _ _ | mutationWithBodyID name _ _ | mutationByID name => name
  | query field _ _ => field.name

/-- The type the field belongs to. -/
def root : Registered → String
  | query _ _ _ => "Query"
  | _ => "Mutation"

/-- The argument for an id. -/
def idArgument : InputValue := { name := "id", type := .named "ID" true }

/-- The argument for a body. -/
def inputArgument (field : String) : InputValue :=
  { name := "input", type := .named (rootTypeName field "Input") true }

/-- The field in the schema. -/
def definition : Registered → FieldDefinition
  | mutationWithBody name _ _ => ⟨name, [inputArgument name], by simp⟩
  | mutationWithBodyID name _ _ =>
    ⟨name, [idArgument, inputArgument name], by simp [idArgument, inputArgument]⟩
  | mutationByID name => ⟨name, [idArgument], by simp⟩
  | query field _ _ => field

theorem default_definition {reg : Registered} {d : InputValue} (hd : d ∈ reg.definition.arguments) :
    d.default = none := by
  cases reg with
  | mutationWithBodyID name request fullBody =>
    simp only [definition, mem_cons, not_mem_nil, or_false] at hd
    rcases hd with rfl | rfl <;> rfl
  | mutationWithBody name request fullBody | mutationByID name =>
    obtain rfl := mem_singleton.1 hd
    rfl
  | query field noDefault types => exact noDefault d hd

/-- Add the input types of a field. -/
def define (G : GoTypes) (depth : ℕ) (defs : Defs) : Registered → Defs
  | mutationWithBody name request fullBody | mutationWithBodyID name request fullBody =>
    inputObject G fullBody depth defs (rootTypeName name "Input") request
  | _ => defs

/-- The types a query brings. -/
def queryTypes : Registered → List (String × TypeDef)
  | query _ _ types => types
  | _ => []

end Registered

/-- The scalars of every schema. -/
def builtin : List (String × TypeDef) :=
  [("Int", .int), ("Float", .float), ("String", .string), ("Boolean", .boolean), ("ID", .id),
   ("DateTime", .scalar)]

variable (depth : ℕ) (fields : List Registered)

/-- The input types of a service, in the order of registration. -/
def inputTypes : Defs := fields.foldl (define G depth) []

/-- The named types of a service. -/
def typesOf (name : String) : Option TypeDef :=
  (((get (inputTypes G depth fields) name).map TypeDef.input).or
    (get builtin name)).or (get (fields.flatMap queryTypes) name)

/-- The schema of a service.  The depth bounds the nesting of request structs. -/
def schemaOf (outputType : String → String → String) : Schema where
  types := typesOf G depth fields
  field t name := (fields.find? fun reg => reg.root = t && reg.name = name).map
    definition
  outputType := outputType
  default_conforms t name f hf d hd j hj := by
    obtain ⟨reg, -, rfl⟩ := map_eq_some_iff.1 hf
    rw [default_definition hd] at hj
    cases hj

/-! ### Resolvers -/

section

variable {ContentType : Type} (env : BindEnv ContentType)

/-- The request of a mutation: its input is decoded like a JSON body, and what is not an object is
no input at all. -/
def decodeInput (t : StructType) (args : List (String × Json)) : Except String StructValue :=
  match member args "input" with
  | some (.obj ms) => (jsonAssignments env t none ms).map (setAll [])
  | _ => .ok []

/-- The text of an argument. -/
def asString : Option Json → String
  | some (.str s) => s
  | some (.num text) => text
  | some (.bool b) => if b then "true" else "false"
  | _ => ""

/-- The handler is run with the request and the id. -/
abbrev Dispatch := String → StructValue → String → Except (List GraphQLError) Json

/-- An id that is given has to be one. -/
def checkID (id : String) : Except (List GraphQLError) Unit :=
  if id ≠ "" ∧ env.parseUUID id = none then .error [{ message := "malformed id" }] else .ok ()

/-- A failure to decode the input. -/
def inputError (field : String) : List GraphQLError := [{ message := "input: " ++ field }]

/-- The resolver of a registered field; queries have their own. -/
def resolverOf (dispatch : Dispatch) (queries : String → Resolver) : Registered → Resolver
  | .mutationWithBody name request _ => fun args _ _ => do
    let req ← (decodeInput env request args).mapError inputError
    dispatch name req ""
  | .mutationWithBodyID name request _ => fun args _ _ => do
    let req ← (decodeInput env request args).mapError inputError
    let id := asString (member args "id")
    checkID env id
    dispatch name req id
  | .mutationByID name => fun args _ _ => do
    let id := asString (member args "id")
    checkID env id
    dispatch name [] id
  | .query field _ _ => queries field.name

/-- A service: its fields in the order of registration, with the types, decoders and handlers
behind them. -/
structure Service (ContentType : Type) where
  env : BindEnv ContentType
  types : GoTypes
  /-- How deep request structs are nested. -/
  nesting : ℕ
  fields : List Registered
  outputType : String → String → String
  dispatch : Dispatch
  queries : String → Resolver
  introspection : Bool
  schemaResolver : Resolver
  typeResolver : Resolver

/-- The registry of a service. -/
def Service.registry (s : Service ContentType) : Registry where
  schema := schemaOf s.types (s.nesting + 1) s.fields s.outputType
  handlers := s.fields.map fun reg => (reg.name, resolverOf s.env s.dispatch s.queries reg)
  introspection := s.introspection
  schemaResolver := s.schemaResolver
  typeResolver := s.typeResolver

end

/-! ### Calls within the types -/

section

variable {L : Loader} {r : Registry} {vars : String → Option Json} {query operationName : String}

/-- The arguments of a call are within the types declared for them. -/
def CallConforms (schema : Schema) (c : Call) : Prop :=
  ∀ d, schema.field c.field.objectDefinition c.field.name = some d → ∀ a ∈ d.arguments,
    conformsArgument schema.types a (member c.arguments a.name) = true

/-- At every place in the arguments of a field that is resolved, a variable stands for a value
within the type of the place. -/
def VariablesFit (L : Loader) (r : Registry) (query : String) (vars : String → Option Json)
    (operationName : String) : Prop :=
  ∀ doc, L.loadQuery r.schema query = .ok doc →
    ∀ op, selectOperation doc operationName = some op → ∀ f ∈ rootFields doc op,
      f.name ≠ typenameField → (r.resolver f.name).isSome →
        ∀ d, r.schema.field f.objectDefinition f.name = some d → ∀ a ∈ d.arguments,
          ∀ v, argument f.arguments a.name = some v →
            ArgumentFits r.schema.types vars op.variableDefinitions a v

/-- A field that obeys the rules is called within the types exactly if its variables fit. -/
theorem callConforms_iff {op : Operation} {f : CollectedField} {c : Call}
    (hrules : obeysRules r.schema f = true) (hc : callOf r op vars f = some c) :
    CallConforms r.schema c ↔
      ∀ d, r.schema.field f.objectDefinition f.name = some d → ∀ a ∈ d.arguments,
        ∀ v, argument f.arguments a.name = some v →
          ArgumentFits r.schema.types vars op.variableDefinitions a v := by
  obtain ⟨htype, -, hfield, harguments⟩ := callOf_eq_some hc
  rw [CallConforms, hfield, harguments]
  refine forall₂_congr fun d hd => forall₂_congr fun a ha => ?_
  have hvalid : argumentsValid r.schema.types d.arguments f.arguments = true := by
    simpa [obeysRules, htype, hd] using hrules
  rw [fieldArguments, hd, map_some, getD_some, member_argumentMap d ha]
  exact conformsArgument_iff hvalid ha (r.schema.default_conforms _ _ d hd a ha)

/-- Every call of a request is within the types exactly if its variables fit their places. -/
theorem callsConform_iff :
    (∀ c ∈ (execute L r query vars operationName).calls, CallConforms r.schema c) ↔
      VariablesFit L r query vars operationName := by
  simp only [mem_calls_iff]
  constructor
  · intro h doc hdoc op hop f hf htype hres
    obtain ⟨b, hb⟩ := isSome_iff_exists.1 hres
    have hc : callOf r op vars f = some ⟨f, b.1, fieldArguments r.schema vars op f⟩ := by
      rw [callOf, if_neg htype, hb, map_some]
    have hrules := L.sound _ _ (loadQuery_ok hdoc).2 op (mem_of_selectOperation hop) f hf
    exact (callConforms_iff hrules hc).1 (h _ ⟨doc, hdoc, op, hop, f, hf, hc⟩)
  · rintro h c ⟨doc, hdoc, op, hop, f, hf, hc⟩
    have hrules := L.sound _ _ (loadQuery_ok hdoc).2 op (mem_of_selectOperation hop) f hf
    obtain ⟨htype, ⟨resolve, hres⟩, -⟩ := callOf_eq_some hc
    exact (callConforms_iff hrules hc).2 (h doc hdoc op hop f hf htype (by rw [hres]; rfl))

end

/-! ### Full bodies -/

section

variable {ContentType : Type} {G : GoTypes} {n : ℕ} {fields : List Registered} {reg : Registered}

namespace Registered

/-- The request of a mutation whose handler asks for the full body. -/
def fullBodyRequest : Registered → Option StructType
  | mutationWithBody _ request true | mutationWithBodyID _ request true => some request
  | _ => none

theorem fullBodyRequest_eq_some {request : StructType} (h : reg.fullBodyRequest = some request) :
    inputArgument reg.name ∈ reg.definition.arguments ∧
      ∀ defs depth, reg.define G depth defs =
        inputObject G true depth defs (rootTypeName reg.name "Input") request := by
  cases reg with
  | mutationWithBody name request' fullBody =>
    cases fullBody <;> cases h
    exact ⟨mem_singleton_self _, fun _ _ => rfl⟩
  | mutationWithBodyID name request' fullBody =>
    cases fullBody <;> cases h
    exact ⟨mem_cons_of_mem _ (mem_singleton_self _), fun _ _ => rfl⟩
  | mutationByID | query => cases h

theorem get_define_of_isSome {defs : Defs} {k : String} (hk : (get defs k).isSome) :
    get (reg.define G n defs) k = get defs k := by
  cases reg with
  | mutationWithBody | mutationWithBodyID => exact get_inputObject_of_isSome hk
  | mutationByID | query => rfl

end Registered

/-- No other field has the name of this one, and no field registered before it reaches a type of the
name of its input. -/
structure OwnInput (G : GoTypes) (depth : ℕ) (fields : List Registered) (reg : Registered) :
    Prop where
  unique : ∀ reg' ∈ fields, reg'.name = reg.name → reg' = reg
  fresh : ∃ before after, fields = before ++ reg :: after ∧
    get (inputTypes G depth before) (rootTypeName reg.name "Input") = none

theorem OwnInput.typesOf_eq (h : OwnInput G (n + 1) fields reg) {request : StructType}
    (hreq : reg.fullBodyRequest = some request) :
    typesOf G (n + 1) fields (rootTypeName reg.name "Input") =
      some (.input ((bodyFields request).map (inputField G true))) := by
  obtain ⟨before, after, rfl, hfresh⟩ := h.fresh
  have hown : get (reg.define G (n + 1) (inputTypes G (n + 1) before))
      (rootTypeName reg.name "Input") = some ((bodyFields request).map (inputField G true)) := by
    rw [(fullBodyRequest_eq_some hreq).2]
    rw [inputObject, if_neg (by simp [hfresh]), get_set_self]
  have hlater : ∀ (after : List Registered) (defs : Defs) (k : String)
      (v : List InputValue), get defs k = some v →
      get (after.foldl (define G (n + 1)) defs) k = some v := by
    intro after
    induction after with
    | nil => exact fun _ _ _ h => h
    | cons reg' after ih =>
      intro defs k v h
      refine ih _ k v ?_
      rw [get_define_of_isSome (by rw [h]; rfl), h]
  have hall : get (inputTypes G (n + 1) (before ++ reg :: after))
      (rootTypeName reg.name "Input") = some ((bodyFields request).map (inputField G true)) := by
    rw [inputTypes, foldl_append, foldl_cons]
    exact hlater after _ _ _ hown
  rw [typesOf, hall, map_some, some_or, some_or]

/-- The input is there, with every field of the body, and none is null. -/
def HasFullBody (request : StructType) (args : List (String × Json)) : Prop :=
  ∃ ms, member args "input" = some (.obj ms) ∧
    ∀ f ∈ bodyFields request, ∃ j, member ms f.wireName = some j ∧ j ≠ .null

theorem hasFullBody_of_conforms {types : String → Option TypeDef} {field : String}
    {request : StructType} {args : List (String × Json)}
    (htypes : types (rootTypeName field "Input") =
      some (.input ((bodyFields request).map (inputField G true))))
    (h : conformsArgument types (inputArgument field)
      (member args "input") = true) : HasFullBody request args := by
  cases harg : member args "input" with
  | none => simp [harg, conformsArgument, inputArgument, TypeRef.nonNull] at h
  | some j =>
    simp only [harg, conformsArgument, inputArgument] at h
    cases j with
    | obj ms =>
      refine ⟨ms, harg, fun f hf => ?_⟩
      simp only [conforms, TypeRef.base, fieldsOf, htypes, Bool.and_eq_true] at h
      have hstrict : ∀ f' ∈ (bodyFields request).map (inputField G true),
          f'.type.nonNull = true := by
        intro f' hf'
        obtain ⟨f0, -, rfl⟩ := mem_map.1 hf'
        simp only [inputField, requiredMark, Bool.true_or]
        cases inputTypeRef (G.ofKind f0.kind) <;> rfl
      have hfield := mem_map_of_mem (f := inputField G true) hf
      have hrequired : (inputField G true f).required = true := by
        rw [InputValue.required, hstrict _ hfield]
        rfl
      obtain ⟨j, hj, f', hf', hconf⟩ := member_of_conforms h.1 h.2 hfield hrequired
      exact ⟨j, hj, ne_null_of_conforms hconf (hstrict f' hf')⟩
    | _ => simp [conforms, TypeRef.base, TypeRef.nonNull, acceptsLeaf, acceptsAll, htypes] at h

/-- **Resolvers are called within the declared types** exactly if the variables fit their places,
and then a mutation with the full body has it. -/
theorem calls_conform_iff (s : Service ContentType) (L : Loader) (query : String)
    (vars : String → Option Json) (operationName : String) :
    ((∀ c ∈ (execute L s.registry query vars operationName).calls,
        CallConforms s.registry.schema c) ↔
      VariablesFit L s.registry query vars operationName) ∧
    (VariablesFit L s.registry query vars operationName →
      ∀ reg request, OwnInput s.types (s.nesting + 1) s.fields reg →
        reg.fullBodyRequest = some request →
        ∀ c ∈ (execute L s.registry query vars operationName).calls, c.field.name = reg.name →
          HasFullBody request c.arguments) := by
  refine ⟨callsConform_iff, fun hfit reg request hown hreq c hc hname => ?_⟩
  have hconf := callsConform_iff.2 hfit c hc
  obtain ⟨doc, hdoc, op, hop, f, hf, hcall⟩ := mem_calls_iff.1 hc
  have hrules := L.sound _ _ (loadQuery_ok hdoc).2 op (mem_of_selectOperation hop) f hf
  obtain ⟨htype, -, rfl, -⟩ := callOf_eq_some hcall
  -- The field selected is the one registered: nothing else has its name.
  have hdef : s.registry.schema.field c.field.objectDefinition c.field.name =
      some reg.definition := by
    simp only [obeysRules, htype, decide_false, Bool.false_or] at hrules
    split at hrules
    · rename_i d hd
      obtain ⟨reg', hfind, rfl⟩ := map_eq_some_iff.1 hd
      have hmem := mem_of_find?_eq_some hfind
      have hfound := find?_some hfind
      simp only [Bool.and_eq_true, decide_eq_true_eq] at hfound
      rw [hd, hown.unique reg' hmem (hfound.2.trans hname)]
    · cases hrules
  exact hasFullBody_of_conforms (hown.typesOf_eq hreq)
    (hconf _ hdef _ (fullBodyRequest_eq_some (G := s.types) hreq).1)

end

/-! ### A mutation without its input -/

/-- The request to create a user. -/
def createUserRequest : StructType where
  fields :=
    [{ selector := "Name", name := "Name", kind := .string, jsonTag := "name" },
     { selector := "Email", name := "Email", kind := .string, jsonTag := "email" }]
  selectors_nodup := by decide

/-- A service that creates users from full bodies. -/
def userService : Service Unit where
  env :=
    { isLetter := Char.isAlphanum, foldRune := id,
      parseFloat := fun _ _ => none, parseUUID := fun _ => none, decodeOther := fun _ _ => none,
      isJSON := fun _ => true, bindOther := fun _ _ _ => none }
  types := ⟨fun _ => .other, fun _ => ⟨[], nodup_nil⟩⟩
  nesting := 0
  fields := [.mutationWithBody "createUser" createUserRequest true]
  outputType _ _ := "CreateUserPayload"
  dispatch _ _ _ := .ok (.obj [("id", .str "1")])
  queries _ _ _ _ := .error []
  introspection := false
  schemaResolver _ _ _ := .ok .null
  typeResolver _ _ _ := .ok .null

/-- One mutation with a variable for its input. -/
def createUserLoader : Loader := .rulesOnly fun query =>
  if query = "mutation($in:CreateUserInput!)\x7bcreateUser(input:$in)\x7bid\x7d\x7d" then
    .ok { operations :=
      [{ kind := .mutation
         variableDefinitions := [{ name := "in", type := .named "CreateUserInput" true }]
         selectionSet := [.field "" "createUser" [("input", .var "in")] [.field "" "id" [] []]] }] }
  else .error [{ message := "another query" }]

/-- The variables of a user with both fields. -/
def annsInput (name : String) : Option Json :=
  if name = "in" then some (.obj [("name", .str "Ann"), ("email", .str "ann@home")]) else none

/-- With its variable given the mutation has its full body. -/
theorem createUser_with_input :
    ∃ c ∈ (execute createUserLoader userService.registry
        "mutation($in:CreateUserInput!)\x7bcreateUser(input:$in)\x7bid\x7d\x7d"
        annsInput "").calls, HasFullBody createUserRequest c.arguments := by
  obtain ⟨hiff, hfull⟩ := calls_conform_iff userService createUserLoader
    "mutation($in:CreateUserInput!)\x7bcreateUser(input:$in)\x7bid\x7d\x7d" annsInput ""
  let f : CollectedField :=
    ⟨"Mutation", "", "createUser", [("input", .var "in")], [.field "" "id" [] []]⟩
  let c : Call :=
    ⟨f, .handler, [("input", .obj [("name", .str "Ann"), ("email", .str "ann@home")])]⟩
  have hfit := hiff.1 fun c' hc' d hd a ha => by
    obtain rfl : c' = c := mem_singleton.1 hc'
    cases hd
    rw [mem_singleton.1 ha]
    decide
  have hown : OwnInput userService.types 1 userService.fields
      (.mutationWithBody "createUser" createUserRequest true) :=
    ⟨fun reg' h _ => mem_singleton.1 h, [], [], rfl, rfl⟩
  exact ⟨c, mem_singleton_self c, hfull hfit _ _ hown rfl c (mem_singleton_self c) rfl⟩

/-- Without any variables the mutation runs without its input. -/
theorem createUser_without_input :
    ∃ c ∈ (execute createUserLoader userService.registry
        "mutation($in:CreateUserInput!)\x7bcreateUser(input:$in)\x7bid\x7d\x7d"
        (fun _ => none) "").calls,
      ¬ CallConforms userService.registry.schema c ∧
        ¬ HasFullBody createUserRequest c.arguments := by
  let f : CollectedField :=
    ⟨"Mutation", "", "createUser", [("input", .var "in")], [.field "" "id" [] []]⟩
  refine ⟨⟨f, .handler, []⟩, ?_, ?_, ?_⟩
  · exact mem_singleton_self _
  · intro h
    have := h _ rfl (inputArgument "createUser") (mem_singleton_self _)
    cases this
  · rintro ⟨ms, hms, -⟩
    cases hms

end Omnicore.Graphql
