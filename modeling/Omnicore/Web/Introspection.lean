import Omnicore.Web.BodyBinding
import Omnicore.Web.GraphQLExecute

/-!
# The introspection gate of the GraphQL endpoint

Introspection travels through the same POST as data, so the authentication middleware lets a request
pass without a token when its body asks for the schema only.  The gate reads the body as JSON; the
endpoint reads it by its content type, and may find another query in the same bytes.

## Main definitions

* `isIntrospectionOnlyRequest`, `publicWhen` : the gate.
* `handler` : the endpoint.

## Main results

* `describes_only_iff` : a request that passes the gate reaches no handler exactly if the query that
  the endpoint reads asks for none; this is so where the endpoint reads JSON as well.
-/

namespace Omnicore.Graphql

open GraphQL Web

/-! ### Requests -/

/-- The body of a request. -/
def gqlRequest : StructType where
  fields :=
    [{ selector := "Query", name := "Query", kind := .string, jsonTag := "query" },
     { selector := "Variables", name := "Variables", kind := .other "map[string]interface \x7b\x7d",
       jsonTag := "variables" },
     { selector := "OperationName", name := "OperationName", kind := .string,
       jsonTag := "operationName" }]
  selectors_nodup := by decide

mutual

/-- A decoded value as a variable's. -/
def variableValue : Value → Json
  | .null => .null
  | .bool b => .bool b
  | .int n => .num (toString n)
  | .str s => .str s
  | .time ms => .num (toString ms)
  | .arr xs => .arr (variableValues xs)
  | .doc fs => .obj (variableFields fs)

/-- The elements of a list. -/
def variableValues : List Value → List Json
  | [] => []
  | x :: xs => variableValue x :: variableValues xs

/-- The members of an object. -/
def variableFields : List (String × Value) → List (String × Json)
  | [] => []
  | (k, x) :: fs => (k, variableValue x) :: variableFields fs

end

/-- The text assigned to a field. -/
def textOf (as : List (String × Value)) (selector : String) : String :=
  match lastAssigned as selector with
  | some (.str s) => s
  | _ => ""

/-- The variables assigned. -/
def variablesOf (as : List (String × Value)) (x : String) : Option Json :=
  match lastAssigned as "Variables" with
  | some (.doc fs) => Json.member (variableFields fs) x
  | _ => none

/-! ### The gate -/

/-- The root fields that describe the schema. -/
def introspectionRootFields : List String := ["__schema", "__type", "__typename"]

/-- A selection of one of these fields. -/
def isIntrospectionField : Selection → Bool
  | .field _ name _ _ => name ∈ introspectionRootFields
  | _ => false

variable (L : Loader)

/-- Every operation is a query of these fields only, whatever operation is then selected. -/
def isIntrospectionOnlyQuery (query : String) : Bool :=
  if query.toList.all Char.isWhitespace then false
  else
    match L.parseQuery query with
    | .error _ => false
    | .ok doc => doc.operations ≠ [] && doc.operations.all fun op =>
        op.kind = .query && op.selectionSet ≠ [] && op.selectionSet.all isIntrospectionField

variable {ContentType : Type}

variable (env : BindEnv ContentType) (body : String)

/-- The body, read as JSON, asks for the schema only. -/
def isIntrospectionOnlyRequest : Bool :=
  match bindJSON env gqlRequest body with
  | .error _ => false
  | .ok as => isIntrospectionOnlyQuery L (textOf as "Query")

/-- A request as the middleware and the endpoint see it. -/
structure Post (ContentType : Type) where
  method : String
  path : String
  contentType : ContentType
  body : String

/-- The request passes without a token. -/
def publicWhen (r : Registry) (gqlPath : String) (p : Post ContentType) : Bool :=
  r.introspection && p.method = "POST" && p.path = gqlPath &&
    isIntrospectionOnlyRequest L env p.body

/-! ### The endpoint -/

/-- The answer of the endpoint. -/
inductive Reply where
  | badRequest (message : String)
  | executed (e : Execution)

/-- The calls made for an answer. -/
def Reply.calls : Reply → List Call
  | .badRequest _ => []
  | .executed e => e.calls

/-- The endpoint reads the body by its content type. -/
def handler (r : Registry) (p : Post ContentType) : Reply :=
  match bindBody env p.contentType gqlRequest p.body with
  | .error _ => .badRequest "invalid GraphQL request body"
  | .ok as =>
    if textOf as "Query" = "" then .badRequest "missing GraphQL query"
    else .executed (execute L r (textOf as "Query") (variablesOf as) (textOf as "OperationName"))

/-! ### The gate and the endpoint -/

section

variable {L : Loader} {env : BindEnv ContentType} {r : Registry} {gqlPath : String}
  {p : Post ContentType}

/-- A root field that reaches no handler. -/
def Describes (r : Registry) (f : CollectedField) : Prop :=
  f.name = typenameField ∨ ∀ b, r.resolver f.name = some b → b.1 = .introspection

/-- The query the endpoint reads, in the operation it selects, has only fields that reach no
handler. -/
def AsksForSchemaOnly (L : Loader) (env : BindEnv ContentType) (r : Registry)
    (p : Post ContentType) : Prop :=
  ∀ as, bindBody env p.contentType gqlRequest p.body = .ok as → textOf as "Query" ≠ "" →
    ∀ doc, L.loadQuery r.schema (textOf as "Query") = .ok doc →
      ∀ op, selectOperation doc (textOf as "OperationName") = some op →
        ∀ f ∈ rootFields doc op, Describes r f

theorem calls_introspection_iff :
    (∀ c ∈ (handler L env r p).calls, c.answerer = .introspection) ↔
      AsksForSchemaOnly L env r p := by
  rw [handler, AsksForSchemaOnly]
  cases hbind : bindBody env p.contentType gqlRequest p.body with
  | error field => simp [Reply.calls]
  | ok as =>
    simp only [Except.ok.injEq, forall_eq']
    by_cases hquery : textOf as "Query" = ""
    · simp [hquery, Reply.calls]
    · simp only [if_neg hquery, Reply.calls, mem_calls_iff]
      constructor
      · intro h _ doc hdoc op hop f hf
        by_cases htype : f.name = typenameField
        · exact .inl htype
        · refine .inr fun b hb => ?_
          exact h _ ⟨doc, hdoc, op, hop, f, hf, by rw [callOf, if_neg htype, hb, Option.map_some]⟩
      · rintro h c ⟨doc, hdoc, op, hop, f, hf, hc⟩
        obtain ⟨htype, ⟨resolve, hres⟩, -⟩ := callOf_eq_some hc
        rcases h hquery doc hdoc op hop f hf with h | h
        · exact absurd h htype
        · exact h _ hres

theorem describes_of_introspection (hintro : r.introspection = true) {f : CollectedField}
    (hf : f.name ∈ introspectionRootFields) : Describes r f := by
  simp only [introspectionRootFields, List.mem_cons, List.not_mem_nil, or_false] at hf
  rcases hf with hf | hf | hf
  · refine .inr fun b hb => ?_
    rw [Registry.resolver, if_pos ⟨hintro, hf⟩] at hb
    rw [← Option.some.inj hb]
  · refine .inr fun b hb => ?_
    rw [Registry.resolver, if_neg (by simp [hf]), if_pos ⟨hintro, hf⟩] at hb
    rw [← Option.some.inj hb]
  · exact .inl hf

theorem rootFields_of_introspectionOnly {query : String}
    (hgate : isIntrospectionOnlyQuery L query = true) {doc : Document}
    (hdoc : L.parseQuery query = .ok doc) {op : Operation} (hop : op ∈ doc.operations) :
    ∀ f ∈ rootFields doc op, f.name ∈ introspectionRootFields := by
  rw [isIntrospectionOnlyQuery] at hgate
  split_ifs at hgate
  simp only [hdoc, Bool.and_eq_true, List.all_eq_true] at hgate
  refine collectFields_fields (p := (· ∈ introspectionRootFields)) fun s hs => ?_
  have hs' := (hgate.2 op hop).2 s hs
  cases s with
  | field responseAlias name arguments selections =>
    have hname : name ∈ introspectionRootFields := by simpa [isIntrospectionField] using hs'
    exact ⟨responseAlias, name, arguments, selections, rfl, hname⟩
  | inlineFragment typeCondition selections => cases hs'
  | fragmentSpread name => cases hs'

/-- The query the endpoint reads passes the rule of the gate. -/
def ReadsIntrospectionOnly (L : Loader) (env : BindEnv ContentType) (p : Post ContentType) : Prop :=
  ∀ as, bindBody env p.contentType gqlRequest p.body = .ok as →
    isIntrospectionOnlyQuery L (textOf as "Query") = true

theorem asksForSchemaOnly_of_reads (hintro : r.introspection = true)
    (hreads : ReadsIntrospectionOnly L env p) : AsksForSchemaOnly L env r p := by
  intro as has _ doc hdoc op hop f hf
  exact describes_of_introspection hintro (rootFields_of_introspectionOnly (hreads as has)
    (loadQuery_ok hdoc).1 (mem_of_selectOperation hop) f hf)

theorem reads_of_json (hgate : isIntrospectionOnlyRequest L env p.body = true)
    (hjson : env.isJSON p.contentType = true) : ReadsIntrospectionOnly L env p := by
  intro as has
  rw [bindBody, if_pos hjson] at has
  rwa [isIntrospectionOnlyRequest, has] at hgate

/-- **The bypass reaches no handler** exactly if the query that the endpoint reads asks for none,
and so where that query passes the rule of the gate, as it does where the endpoint reads the body as
JSON like the gate. -/
theorem describes_only_iff (hpublic : publicWhen L env r gqlPath p = true) :
    ((∀ c ∈ (handler L env r p).calls, c.answerer = .introspection) ↔ AsksForSchemaOnly L env r p) ∧
    (ReadsIntrospectionOnly L env p →
      ∀ c ∈ (handler L env r p).calls, c.answerer = .introspection) ∧
    (env.isJSON p.contentType = true →
      ∀ c ∈ (handler L env r p).calls, c.answerer = .introspection) := by
  simp only [publicWhen, Bool.and_eq_true] at hpublic
  obtain ⟨⟨⟨hintro, -⟩, -⟩, hgate⟩ := hpublic
  have hreads : ReadsIntrospectionOnly L env p →
      ∀ c ∈ (handler L env r p).calls, c.answerer = .introspection :=
    fun h => calls_introspection_iff.2 (asksForSchemaOnly_of_reads hintro h)
  exact ⟨calls_introspection_iff, hreads, fun hjson => hreads (reads_of_json hgate hjson)⟩

end

/-! ### A form that is JSON as well -/

/-- The content types of the example. -/
inductive BodyFormat where
  | json
  | form
  deriving DecidableEq

/-- The escapes of a form. -/
def unescape : List Char → List Char
  | [] => []
  | '+' :: cs => ' ' :: unescape cs
  | '%' :: a :: b :: cs =>
    match Json.hexDigit a, Json.hexDigit b with
    | some x, some y => Json.charOf (x * 16 + y) :: unescape cs
    | _, _ => '%' :: unescape (a :: b :: cs)
  | c :: cs => c :: unescape cs

/-- The names and values of a form. -/
def formPairs : List (String × String) :=
  (body.toList.splitOn '&').map fun pair =>
    (String.ofList (unescape (pair.takeWhile (· ≠ '='))),
      String.ofList (unescape ((pair.dropWhile (· ≠ '=')).drop 1)))

/-- A form sets the text fields it names, in any case; other names are skipped. -/
def bindForm (t : StructType) (body : String) : List (String × Value) :=
  (formPairs body).filterMap fun pair =>
    (t.fields.find? fun f =>
      f.kind = .string && f.name.toList.map Char.toLower = pair.1.toList.map Char.toLower).map
        fun f => (f.selector, .str pair.2)

/-- Bodies are JSON or forms. -/
def jsonOrForm : BindEnv BodyFormat where
  isLetter := Char.isAlphanum
  foldRune := id
  parseFloat _ _ := none
  parseUUID _ := none
  decodeOther _ _ := none
  isJSON := (· = .json)
  bindOther _ t body := some (bindForm t body)

/-- A service that archives users. -/
def userRegistry : Registry where
  schema :=
    { types := fun name => if name = "ID" then some .id else none
      field := fun type name =>
        if type = "Mutation" ∧ name = "archiveUser" then
          some ⟨"archiveUser", [{ name := "id", type := .named "ID" true }], by simp⟩
        else if type = "Query" ∧ name = "__schema" then some ⟨"__schema", [], by simp⟩
        else none
      outputType := fun _ _ => "ArchiveUserPayload"
      default_conforms := by
        intro t n f hf d hd j hj
        split_ifs at hf <;> cases hf
        · obtain rfl := List.mem_singleton.1 hd
          cases hj
        · cases hd }
  handlers := [("archiveUser", fun _ _ _ => .ok (.obj [("success", .bool true)]))]
  introspection := true
  schemaResolver _ _ _ := .ok (.obj [])
  typeResolver _ _ _ := .ok .null

/-- The queries of the examples and their documents. -/
def userLoader : Loader := .rulesOnly fun query =>
  if query = "\x7b__typename\x7d" then
    .ok { operations := [{ kind := .query, selectionSet := [.field "" "__typename" [] []] }] }
  else if query = "\x7b__schema\x7bqueryType\x7d\x7d" then
    .ok { operations := [{ kind := .query, selectionSet :=
      [.field "" "__schema" [] [.field "" "queryType" [] []]] }] }
  else if query = "mutation\x7barchiveUser(id:1)\x7bsuccess\x7d\x7d" then
    .ok { operations := [{ kind := .mutation, selectionSet :=
      [.field "" "archiveUser" [("id", .int "1")] [.field "" "success" [] []]] }] }
  else .error [{ message := "not one of the three" }]

/-- A body that asks for the type name as JSON, and archives a user as a form. -/
def twoFaced (format : BodyFormat) : Post BodyFormat where
  method := "POST"
  path := "/graphql"
  contentType := format
  body := "\x7b\"query\":\"\x7b__typename\x7d\",\"x\":\"&query=mutation\x7barchiveUser(id:1)" ++
    "\x7bsuccess\x7d\x7d&\"\x7d"

/-- A JSON body that asks for the schema. -/
def schemaPost : Post BodyFormat where
  method := "POST"
  path := "/graphql"
  contentType := .json
  body := "\x7b\"query\":\"\x7b__schema\x7bqueryType\x7d\x7d\"\x7d"

theorem describes_only_json :
    publicWhen userLoader jsonOrForm userRegistry "/graphql" schemaPost = true ∧
      (handler userLoader jsonOrForm userRegistry schemaPost).calls.map (·.field.name) =
        ["__schema"] ∧
      ∀ c ∈ (handler userLoader jsonOrForm userRegistry schemaPost).calls,
        c.answerer = .introspection := by
  have hpublic : publicWhen userLoader jsonOrForm userRegistry "/graphql" schemaPost = true := by
    decide +kernel
  exact ⟨hpublic, by decide +kernel, (describes_only_iff hpublic).2.2 rfl⟩

/-- The gate sees the JSON, the endpoint the form. -/
theorem form_reaches_handler :
    publicWhen userLoader jsonOrForm userRegistry "/graphql" (twoFaced .form) = true ∧
      ∃ c ∈ (handler userLoader jsonOrForm userRegistry (twoFaced .form)).calls,
        c.field.name = "archiveUser" ∧ c.answerer = .handler := by
  decide +kernel

end Omnicore.Graphql
