import Omnicore.Lib.AssocMap
import Omnicore.Lib.Except
import Omnicore.Lib.GraphQL

/-!
# Executing a GraphQL document

The executor loads a document, selects an operation and walks its root fields, those of fragments
included.  A root field is answered by the resolver registered under its name, which is called with
the arguments of the field; its answer is trimmed to the selection.  The parser and the validator
are a library's: what the executor relies on is stated with them.

## Main definitions

* `Loader` : the parser and the validator.
* `collectFields`, `applySelection` : the walk over selection sets.
* `Registry`, `execute` : the resolvers, and the calls made of them.

## Main results

* `mem_calls_iff` : the resolvers called are those of the root fields of the selected operation.
-/

namespace Omnicore.Graphql

open GraphQL List Option

/-! ### Selection sets -/

/-- A field of a selection set, with the type it is selected on. -/
structure CollectedField where
  objectDefinition : String
  responseAlias : String
  name : String
  arguments : List (String × Literal)
  selectionSet : List Selection

/-- The key of a field in the response. -/
def CollectedField.responseKey (f : CollectedField) : String :=
  if f.responseAlias ≠ "" then f.responseAlias else f.name

mutual

/-- The fields of a selection set, given those of the named fragments. -/
def flatten (spread : String → List CollectedField) (parent : String) :
    List Selection → List CollectedField
  | [] => []
  | s :: sel => flattenOne spread parent s ++ flatten spread parent sel

/-- The fields of a selection: an inline fragment stands for its own. -/
def flattenOne (spread : String → List CollectedField) (parent : String) :
    Selection → List CollectedField
  | .field responseAlias name arguments selections =>
    [⟨parent, responseAlias, name, arguments, selections⟩]
  | .inlineFragment typeCondition selections =>
    flatten spread (if typeCondition = "" then parent else typeCondition) selections
  | .fragmentSpread name => spread name

end

/-- The fields of a selection set whose fragments are nested at most so deep. -/
def collectNested (frags : List Fragment) : ℕ → String → List Selection → List CollectedField
  | 0, parent, sel => flatten (fun _ => []) parent sel
  | n + 1, parent, sel =>
    flatten (fun name =>
      match frags.find? (·.name = name) with
      | some frag => collectNested frags n frag.typeCondition frag.selectionSet
      | none => []) parent sel

/-- The fields of a selection set.  Fragments do not contain themselves in a document that passed
the validator, so they nest no deeper than there are fragments. -/
def collectFields (frags : List Fragment) (parent : String) (sel : List Selection) :
    List CollectedField :=
  collectNested frags frags.length parent sel

variable {p : String → Prop} {sel : List Selection}

section

variable (h : ∀ s ∈ sel, ∃ responseAlias name arguments selections,
  s = .field responseAlias name arguments selections ∧ p name)
include h

theorem flatten_fields {spread : String → List CollectedField} {parent : String} :
    ∀ f ∈ flatten spread parent sel, p f.name := by
  induction sel with
  | nil => exact nofun
  | cons s sel ih =>
    intro f hf
    obtain ⟨responseAlias, name, arguments, selections, rfl, hp⟩ := h s mem_cons_self
    rw [flatten, flattenOne, mem_append, mem_singleton] at hf
    rcases hf with rfl | hf
    · exact hp
    · exact ih (fun s hs => h s (mem_cons_of_mem _ hs)) f hf

theorem collectFields_fields {frags : List Fragment} {parent : String} :
    ∀ f ∈ collectFields frags parent sel, p f.name := by
  rw [collectFields]
  cases frags.length with
  | zero => exact flatten_fields h
  | succ n => exact flatten_fields h

end

/-! ### Schemas -/

/-- The schema generated from the registered fields: its input types, its fields with their
arguments, and the types of their answers. -/
structure Schema where
  types : String → Option TypeDef
  field : String → String → Option FieldDefinition
  outputType : String → String → String
  /-- A default is within the type of its argument. -/
  default_conforms : ∀ t n f, field t n = some f → ∀ d ∈ f.arguments, ∀ j, d.default = some j →
    conforms types j d.type = true

/-- The name of the type whose fields an operation selects. -/
def rootType : OperationKind → String
  | .query => "Query"
  | .mutation => "Mutation"
  | .subscription => "Subscription"

/-- The meta-field that names the type it is selected on. -/
def typenameField : String := "__typename"

/-- The root fields of an operation. -/
def rootFields (doc : Document) (op : Operation) : List CollectedField :=
  collectFields doc.fragments (rootType op.kind) op.selectionSet

structure GraphQLError where
  message : String
  path : Option (List String) := none
  deriving DecidableEq

/-- A root field is one of the schema, with arguments that obey the rules of their types. -/
def obeysRules (schema : Schema) (f : CollectedField) : Bool :=
  f.name = typenameField ||
    match schema.field f.objectDefinition f.name with
    | some d => argumentsValid schema.types d.arguments f.arguments
    | none => false

/-- The parser and the validator; a document that passes the validator has root fields that obey the
rules. -/
structure Loader where
  parseQuery : String → Except (List GraphQLError) Document
  validate : Schema → Document → List GraphQLError
  sound : ∀ schema doc, validate schema doc = [] →
    ∀ op ∈ doc.operations, ∀ f ∈ rootFields doc op, obeysRules schema f = true

/-- The loader with just these rules. -/
def Loader.rulesOnly (parseQuery : String → Except (List GraphQLError) Document) : Loader where
  parseQuery := parseQuery
  validate schema doc :=
    if doc.operations.all fun op => (rootFields doc op).all (obeysRules schema) then []
    else [{ message := "the document breaks the rules" }]
  sound schema doc h op hop f hf := by
    split_ifs at h with hrules
    exact all_eq_true.1 (all_eq_true.1 hrules op hop) f hf

/-- Parse a document and validate it. -/
def Loader.loadQuery (L : Loader) (schema : Schema) (query : String) :
    Except (List GraphQLError) Document := do
  let doc ← L.parseQuery query
  match L.validate schema doc with
  | [] => return doc
  | errs => throw errs

/-- The operation of a name; the only one needs none. -/
def forName (ops : List Operation) (name : String) : Option Operation :=
  if name = "" ∧ ops.length = 1 then ops.head? else ops.find? (·.name = name)

/-- The operation to execute: without a name the first one. -/
def selectOperation (doc : Document) (operationName : String) : Option Operation :=
  (forName doc.operations operationName).or
    (if operationName = "" then doc.operations.head? else none)

theorem mem_of_selectOperation {doc : Document} {operationName : String} {op : Operation}
    (h : selectOperation doc operationName = some op) : op ∈ doc.operations := by
  rcases or_eq_some_iff.1 h with h | ⟨-, h⟩
  · rw [forName] at h
    split_ifs at h
    · exact mem_of_head? h
    · exact mem_of_find?_eq_some h
  · split_ifs at h
    exact mem_of_head? h

/-! ### Trimming -/

mutual

/-- Trim an answer to a selection set; the type of the answer names it where this is asked. -/
def applySelection (schema : Schema) (frags : List Fragment) :
    Json → String → List Selection → Json
  | .obj ms, parent, sel =>
    let trims := trimMembers schema frags ms
    match collectFields frags parent sel with
    | [] => .obj ms
    | fields => .obj <| fields.foldl (fun out f =>
        AssocMap.set out f.responseKey <|
          if f.name = typenameField then .str f.objectDefinition
          else match (trims.reverse.find? (·.1 = f.name)).map Prod.snd with
            | some trim => trim (schema.outputType f.objectDefinition f.name) f.selectionSet
            | none => .null) []
  | .arr xs, parent, sel =>
    let trims := trimElements schema frags xs
    match collectFields frags parent sel with
    | [] => .arr xs
    | _ => .arr (trims.map fun trim => trim parent sel)
  | j, _, _ => j

/-- How each member of an object is trimmed. -/
def trimMembers (schema : Schema) (frags : List Fragment) :
    List (String × Json) → List (String × (String → List Selection → Json))
  | [] => []
  | (k, j) :: ms => (k, applySelection schema frags j) :: trimMembers schema frags ms

/-- How each element of a list is trimmed. -/
def trimElements (schema : Schema) (frags : List Fragment) :
    List Json → List (String → List Selection → Json)
  | [] => []
  | x :: xs => applySelection schema frags x :: trimElements schema frags xs

end

/-! ### Resolvers -/

/-- A resolver answers arguments with a value or with errors; it also sees what is selected. -/
abbrev Resolver := List (String × Json) → List Selection → List Fragment →
  Except (List GraphQLError) Json

/-- Who answers a root field. -/
inductive Answerer where
  /-- The description of the schema. -/
  | introspection
  /-- A registered handler. -/
  | handler
  deriving DecidableEq, Repr

/-- The registered fields, and the resolvers of introspection where it is enabled. -/
structure Registry where
  schema : Schema
  handlers : List (String × Resolver)
  introspection : Bool
  schemaResolver : Resolver
  typeResolver : Resolver

/-- The resolver of a root field: those of introspection take their names from any handler, and of
handlers registered under one name the last counts. -/
def Registry.resolver (r : Registry) (name : String) : Option (Answerer × Resolver) :=
  if r.introspection ∧ name = "__schema" then some (.introspection, r.schemaResolver)
  else if r.introspection ∧ name = "__type" then some (.introspection, r.typeResolver)
  else ((r.handlers.reverse.find? (·.1 = name)).map Prod.snd).map (.handler, ·)

/-- A call of a resolver. -/
structure Call where
  field : CollectedField
  answerer : Answerer
  arguments : List (String × Json)

structure Response where
  data : List (String × Json) := []
  errors : List GraphQLError := []

/-- The calls made so far, and the response. -/
structure Execution where
  calls : List Call := []
  response : Response := {}

/-- The arguments a field is resolved with. -/
def fieldArguments (schema : Schema) (vars : String → Option Json) (op : Operation)
    (f : CollectedField) : List (String × Json) :=
  argumentMap vars op.variableDefinitions
    (((schema.field f.objectDefinition f.name).map FieldDefinition.arguments).getD []) f.arguments

variable (e : Execution) (key : String) (errs : List GraphQLError)

/-- Add an answer. -/
def Execution.answer (j : Json) : Execution :=
  { e with response := { e.response with data := AssocMap.set e.response.data key j } }

/-- Add errors, whose path is that of the field where they have none, and a null. -/
def Execution.fail : Execution :=
  let errs := errs.map fun err => { err with path := err.path.or (some [key]) }
  { e with
    response :=
      { data := AssocMap.set e.response.data key .null, errors := e.response.errors ++ errs } }

/-- Resolve a root field. -/
def resolveField (r : Registry) (doc : Document) (op : Operation) (vars : String → Option Json)
    (e : Execution) (f : CollectedField) : Execution :=
  let key := f.responseKey
  if f.name = typenameField then e.answer key (.str f.objectDefinition)
  else
    match r.resolver f.name with
    | none => e.fail key [{ message := "no resolver for field " ++ f.name }]
    | some (answerer, resolve) =>
      let arguments := fieldArguments r.schema vars op f
      let e : Execution := { e with calls := e.calls ++ [⟨f, answerer, arguments⟩] }
      match resolve arguments f.selectionSet doc.fragments with
      | .error [] => e.answer key .null
      | .error errs => e.fail key errs
      | .ok j => e.answer key (applySelection r.schema doc.fragments j
          (r.schema.outputType f.objectDefinition f.name) f.selectionSet)

/-- A response of errors only. -/
def Execution.refuse : Execution := { response := { errors := errs } }

/-- Execute a document. -/
def execute (L : Loader) (r : Registry) (query : String) (vars : String → Option Json)
    (operationName : String) : Execution :=
  match L.loadQuery r.schema query with
  | .error errs => .refuse errs
  | .ok doc =>
    match selectOperation doc operationName with
    | none => .refuse [{ message := "no operation to execute" }]
    | some op => (rootFields doc op).foldl (resolveField r doc op vars) {}

/-! ### The calls -/

variable {L : Loader} {r : Registry} {doc : Document} {op : Operation}
  {vars : String → Option Json}

@[simp] theorem Execution.answer_calls (j : Json) : (e.answer key j).calls = e.calls := rfl

@[simp] theorem Execution.fail_calls : (e.fail key errs).calls = e.calls := rfl

/-- The call a root field makes, if any. -/
def callOf (r : Registry) (op : Operation) (vars : String → Option Json) (f : CollectedField) :
    Option Call :=
  if f.name = typenameField then none
  else (r.resolver f.name).map fun (answerer, _) =>
    ⟨f, answerer, fieldArguments r.schema vars op f⟩

theorem resolveField_calls (f : CollectedField) :
    (resolveField r doc op vars e f).calls = e.calls ++ (callOf r op vars f).toList := by
  rw [resolveField, callOf]
  by_cases htype : f.name = typenameField
  · simp [htype]
  · simp only [if_neg htype]
    cases hres : r.resolver f.name with
    | none => simp
    | some p =>
      simp only [map_some, toList_some]
      split <;> rfl

theorem foldl_resolveField_calls (fs : List CollectedField) (e : Execution) :
    (fs.foldl (resolveField r doc op vars) e).calls =
      e.calls ++ fs.filterMap (callOf r op vars) := by
  induction fs generalizing e with
  | nil => simp
  | cons f fs ih =>
    rw [foldl_cons, ih, resolveField_calls, append_assoc]
    cases h : callOf r op vars f with
    | none => simp [h]
    | some c => simp [h]

/-- **The calls of a request** are those of the root fields of the operation it selects. -/
theorem mem_calls_iff {query operationName : String} {c : Call} :
    c ∈ (execute L r query vars operationName).calls ↔
      ∃ doc, L.loadQuery r.schema query = .ok doc ∧
        ∃ op, selectOperation doc operationName = some op ∧
          ∃ f ∈ rootFields doc op, callOf r op vars f = some c := by
  rw [execute]
  cases hload : L.loadQuery r.schema query with
  | error errs => simp [Execution.refuse]
  | ok doc =>
    simp only [Except.ok.injEq, exists_eq_left']
    cases hop : selectOperation doc operationName with
    | none => simp [Execution.refuse]
    | some op => simp [foldl_resolveField_calls]

theorem callOf_eq_some {f : CollectedField} {c : Call} (h : callOf r op vars f = some c) :
    f.name ≠ typenameField ∧ (∃ resolve, r.resolver f.name = some (c.answerer, resolve)) ∧
      c.field = f ∧ c.arguments = fieldArguments r.schema vars op f := by
  rw [callOf] at h
  split_ifs at h with htype
  obtain ⟨p, hp, rfl⟩ := map_eq_some_iff.1 h
  exact ⟨htype, ⟨p.2, hp⟩, rfl, rfl⟩

theorem loadQuery_ok {query : String} (h : L.loadQuery r.schema query = .ok doc) :
    L.parseQuery query = .ok doc ∧ L.validate r.schema doc = [] := by
  obtain ⟨doc', hparse, h⟩ := Except.bind_ok.1 h
  split at h
  · rename_i hvalid
    cases h
    exact ⟨hparse, hvalid⟩
  · cases h

end Omnicore.Graphql
