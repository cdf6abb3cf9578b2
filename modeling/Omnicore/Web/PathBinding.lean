import Omnicore.Web.BodyBinding

/-!
# Path-bound fields of a command

A request struct may take fields from the segments of the URL.  The command wrappers fill these
first and then bind the body to the same struct, so a body that names such a field has the last
word.

## Main definitions

* `inspectPathTags` : the path-bound fields of a struct, checked when the wrapper is built.
* `commandWithBody`, `commandWithBodyID` : the request a wrapper dispatches.

## Main results

* `leavesSegments_of_hidden` : a JSON body assigns nothing to a field that is hidden from JSON.
* `holds_segment_iff` : the path-bound fields hold their segments exactly if the body assigns them
  nothing else.
-/

namespace Omnicore.Web

open List AssocMap Except Option

/-! ### Path tags -/

/-- A path-bound field. -/
structure PathFieldPlan where
  selector : String
  segment : String
  kind : FieldKind
  deriving DecidableEq, Repr

open PathFieldPlan

/-- Whether a type can be bound to a segment; if not, the reason. -/
def classifyPathFieldType : FieldKind → Option String
  | .pointer _ => some "path: tag must be on a non-pointer field; URL segments are always present"
  | .list _ => some "path: tag does not support slice/array types; segments are scalar"
  | .struct _ => some
    "path: tag does not support custom struct types (only domain.ID and uuid.UUID — see §6)"
  | .other typeName => some ("path: tag does not support field type " ++ typeName)
  | _ => none

/-- Add a field to the plans, or give the reason why it cannot be bound. -/
def inspectField (plans : List PathFieldPlan) (f : StructField) :
    Except String (List PathFieldPlan) :=
  if f.pathTag = "" ∨ f.depth ≠ 0 then .ok plans
  else if f.anonymous then .error "anonymous embedded field cannot carry a path: tag"
  else if !f.exported then .error "unexported field cannot carry a path: tag"
  else if f.jsonTag ≠ "" ∧ f.jsonTag ≠ "-" then
    .error ("field declares both path:\"" ++ f.pathTag ++ "\" and json:\"" ++ f.jsonTag ++
      "\" — same value cannot come from two sources")
  else
    match classifyPathFieldType f.kind with
    | some reason => .error reason
    | none =>
      if f.pathTag ∈ plans.map segment then
        .error ("segment :" ++ f.pathTag ++ " already bound to another field on the same Request")
      else .ok (plans ++ [⟨f.selector, f.pathTag, f.kind⟩])

/-- The path-bound fields of a struct, or the reason why the wrapper cannot be built. -/
def inspectPathTags (t : StructType) : Except String (List PathFieldPlan) :=
  t.fields.foldlM inspectField []

/-- The same for a wrapper that takes the segment `id` itself. -/
def inspectPathTagsWithID (t : StructType) : Except String (List PathFieldPlan) := do
  let plans ← inspectPathTags t
  if "id" ∈ plans.map segment then
    throw "CommandWithBodyID does not accept a path:\"id\" tag on the Request."
  return plans

/-! ### Requests -/

/-- Why a request is not dispatched. -/
inductive Refusal where
  | missingFields (fields : List String)
  | schemaViolation (field : String)
  | malformedPathID (field value : String)
  | unknownPathIDAddress (field value : String)
  deriving DecidableEq, Repr

/-- A request: the segments of its URL, whether its method only reads, and its body. -/
structure HttpRequest (ContentType : Type) where
  params : String → String
  isReadMethod : Bool := false
  contentType : ContentType
  body : String

variable {ContentType : Type} (env : BindEnv ContentType)

/-- The spellings of truth. -/
def parseBool (raw : String) : Option Bool :=
  if raw ∈ ["1", "t", "T", "TRUE", "true", "True"] then some true
  else if raw ∈ ["0", "f", "F", "FALSE", "false", "False"] then some false
  else none

/-- A segment in the type of its field. -/
def setPathField (kind : FieldKind) (raw : String) : Option Value :=
  match kind with
  | .string => some (.str raw)
  | .int bits => (Decimal.parseInt bits raw).map .int
  | .uint bits => (Decimal.parseUint bits raw).map .int
  | .float bits => env.parseFloat bits raw
  | .bool => (parseBool raw).map .bool
  | .uuid => (env.parseUUID raw).map .str
  | .domainID => (env.parseUUID raw).map fun _ => .str raw
  | .pointer _ | .list _ | .struct _ | .other _ => none

variable (t : StructType) (plans : List PathFieldPlan) (r : HttpRequest ContentType)

/-- The refusal of a segment: one of an identity is an address problem. -/
def pathBindingViolation (plan : PathFieldPlan) (raw : String) : Refusal :=
  if plan.kind ≠ .uuid ∧ plan.kind ≠ .domainID then .schemaViolation plan.segment
  else if r.isReadMethod then .unknownPathIDAddress plan.segment raw
  else .malformedPathID plan.segment raw

/-- Set one field from its segment. -/
def bindSegment (req : StructValue) (plan : PathFieldPlan) : Except Refusal StructValue :=
  match setPathField env plan.kind (r.params plan.segment) with
  | some v => .ok (set req plan.selector v)
  | none => .error (pathBindingViolation r plan (r.params plan.segment))

/-- Set every path-bound field. -/
def applyPathBinding : Except Refusal StructValue := plans.foldlM (bindSegment env r) []

/-! ### The wrappers -/

/-- The JSON keys a full body must have: those of the exported fields that are not path-bound. -/
def reflectExpectedJSONKeys : List String :=
  (t.fields.filterMap fun f =>
    if f.anonymous ∨ !f.exported ∨ f.depth ≠ 0 ∨ f.pathTag ≠ "" ∨ f.jsonTag = "-" then none
    else some f.wireName).mergeSort

/-- The check of a full body. -/
def checkFullBody (strict : Bool) (body : String) : Except Refusal Unit :=
  let expected := reflectExpectedJSONKeys t
  if !strict || expected = [] then .ok ()
  else if body = "" then .error (.missingFields expected)
  else
    match Json.read body with
    | some (.obj members) =>
      match expected.filter fun k => k ∉ members.map Prod.fst with
      | [] => .ok ()
      | missing => .error (.missingFields missing)
    | some .null => .error (.missingFields expected)
    | _ => .error (.schemaViolation "")

/-- Bind a body that is not empty. -/
def bindRequestBody (req : StructValue) : Except Refusal StructValue :=
  if r.body = "" then .ok req
  else
    match bindBody env r.contentType t r.body with
    | .ok as => .ok (setAll req as)
    | .error field => .error (.schemaViolation field)

/-- The request a wrapper dispatches, its own check of the URL made between the segments and the
body. -/
def dispatched (strict : Bool) (check : Except Refusal Unit) (r : HttpRequest ContentType) :
    Except Refusal StructValue := do
  checkFullBody t strict r.body
  let req ← applyPathBinding env plans r
  check
  bindRequestBody env t r req

/-- The request of a command without an id in its URL. -/
def commandWithBody (strict : Bool) (r : HttpRequest ContentType) : Except Refusal StructValue :=
  dispatched env t plans strict (.ok ()) r

/-- The refusal of an id that is not one. -/
def checkPathID : Except Refusal Unit :=
  if r.params "id" ≠ "" ∧ env.parseUUID (r.params "id") = none then
    .error (.malformedPathID "id" (r.params "id"))
  else .ok ()

/-- The request of a command with an id in its URL, and the id. -/
def commandWithBodyID (strict : Bool) (r : HttpRequest ContentType) :
    Except Refusal (StructValue × String) := do
  let req ← dispatched env t plans strict (checkPathID env r) r
  return (req, r.params "id")

/-! ### Path-bound fields -/

section

variable {env} {t : StructType} {plans : List PathFieldPlan} {r : HttpRequest ContentType}

/-- The plans are of different fields of the struct, whose tags are absent or hide them. -/
structure PlansOf (fields : List StructField) (plans : List PathFieldPlan) : Prop where
  sublist : (plans.map selector).Sublist (fields.map StructField.selector)
  tags : ∀ p ∈ plans, ∃ f ∈ fields, f.selector = p.selector ∧ (f.jsonTag = "" ∨ f.jsonTag = "-")

theorem PlansOf.inspectField {fields : List StructField} {plans' : List PathFieldPlan}
    {f : StructField} (h : PlansOf fields plans) (hf : Web.inspectField plans f = .ok plans') :
    PlansOf (fields ++ [f]) plans' := by
  have hkeep : PlansOf (fields ++ [f]) plans := by
    refine ⟨?_, fun p hp => ?_⟩
    · rw [map_append]
      exact h.sublist.trans (sublist_append_left _ _)
    · obtain ⟨g, hg, hrest⟩ := h.tags p hp
      exact ⟨g, mem_append_left _ hg, hrest⟩
  simp only [Web.inspectField] at hf
  split_ifs at hf with hskip hanon hexp htag hdup
  · cases hf
    exact hkeep
  · split at hf <;> cases hf
  · split at hf
    · cases hf
    · cases hf
      refine ⟨?_, fun p hp => ?_⟩
      · rw [map_append, map_append]
        exact h.sublist.append (List.Sublist.refl _)
      · rcases mem_concat.1 hp with hp | rfl
        · exact hkeep.tags p hp
        · exact ⟨f, by simp, rfl, by tauto⟩

theorem plansOf_inspectPathTags (h : inspectPathTags t = .ok plans) : PlansOf t.fields plans := by
  have hall : ∀ (rest done : List StructField) (plans0 : List PathFieldPlan),
      PlansOf done plans0 → rest.foldlM inspectField plans0 = .ok plans →
      PlansOf (done ++ rest) plans := by
    intro rest
    induction rest with
    | nil =>
      intro done plans0 hp h
      cases h
      simpa using hp
    | cons f rest ih =>
      intro done plans0 hp h
      rw [foldlM_cons, bind_ok] at h
      obtain ⟨plans1, h1, h⟩ := h
      have := ih (done ++ [f]) plans1 (hp.inspectField h1) h
      simpa using this
  exact hall t.fields [] [] ⟨by simp, nofun⟩ h

variable {req : StructValue}

theorem applyPathBinding_ok (hnodup : (plans.map selector).Nodup)
    (h : applyPathBinding env plans r = .ok req) {p : PathFieldPlan} (hp : p ∈ plans) :
    ∃ v, setPathField env p.kind (r.params p.segment) = some v ∧ get req p.selector = some v := by
  have hall : ∀ (plans : List PathFieldPlan) (req0 : StructValue), (plans.map selector).Nodup →
      plans.foldlM (bindSegment env r) req0 = .ok req →
      (∀ p ∈ plans, ∃ v, setPathField env p.kind (r.params p.segment) = some v ∧
        get req p.selector = some v) ∧
      ∀ k, k ∉ plans.map selector → get req k = get req0 k := by
    intro plans
    induction plans with
    | nil =>
      intro req0 _ h
      cases h
      exact ⟨nofun, fun _ _ => rfl⟩
    | cons q plans ih =>
      intro req0 hnodup h
      rw [map_cons, nodup_cons] at hnodup
      rw [foldlM_cons, bind_ok] at h
      obtain ⟨req1, h1, h⟩ := h
      obtain ⟨hset, hframe⟩ := ih req1 hnodup.2 h
      rw [bindSegment] at h1
      cases hv : setPathField env q.kind (r.params q.segment) with
      | none => simp [hv] at h1
      | some v =>
        simp only [hv] at h1
        cases h1
        refine ⟨fun p hp => ?_, fun k hk => ?_⟩
        · rcases mem_cons.1 hp with rfl | hp
          · exact ⟨v, hv, by rw [hframe _ hnodup.1, get_set_self]⟩
          · exact hset p hp
        · rw [map_cons, mem_cons, not_or] at hk
          rw [hframe k hk.2, get_set_ne _ _ (Ne.symm hk.1)]
  exact (hall plans [] hnodup h).1 p hp

/-- A dispatched request is the bound segments with the assignments of the body over them. -/
theorem dispatched_ok {strict : Bool} {check : Except Refusal Unit}
    (h : dispatched env t plans strict check r = .ok req) :
    ∃ req0, applyPathBinding env plans r = .ok req0 ∧
      ((r.body = "" ∧ req = req0) ∨
        r.body ≠ "" ∧ ∃ as, bindBody env r.contentType t r.body = .ok as ∧
          req = setAll req0 as) := by
  obtain ⟨_, -, h⟩ := bind_ok.1 h
  obtain ⟨req0, h0, h⟩ := bind_ok.1 h
  obtain ⟨_, -, h⟩ := bind_ok.1 h
  refine ⟨req0, h0, ?_⟩
  rw [bindRequestBody] at h
  split_ifs at h with hbody
  · exact .inl ⟨hbody, (ok.inj h).symm⟩
  · cases hb : bindBody env r.contentType t r.body with
    | error field => simp [hb] at h
    | ok as =>
      simp only [hb] at h
      exact .inr ⟨hbody, as, rfl, (ok.inj h).symm⟩

theorem inspectPathTagsWithID_ok (h : inspectPathTagsWithID t = .ok plans) :
    inspectPathTags t = .ok plans := by
  obtain ⟨plans', h', h⟩ := bind_ok.1 h
  split_ifs at h
  · cases h
  · cases h
    exact h'

/-- The request is one that a wrapper of the struct, with these path-bound fields, dispatches. -/
def Dispatches (env : BindEnv ContentType) (t : StructType) (plans : List PathFieldPlan)
    (r : HttpRequest ContentType) (req : StructValue) : Prop :=
  ∃ strict,
    (inspectPathTags t = .ok plans ∧ commandWithBody env t plans strict r = .ok req) ∨
    (inspectPathTagsWithID t = .ok plans ∧
      ∃ id, commandWithBodyID env t plans strict r = .ok (req, id))

theorem Dispatches.dispatched (h : Dispatches env t plans r req) :
    inspectPathTags t = .ok plans ∧
      ∃ strict check, Web.dispatched env t plans strict check r = .ok req := by
  obtain ⟨strict, ⟨hplans, h⟩ | ⟨hplans, id, h⟩⟩ := h
  · exact ⟨hplans, strict, _, h⟩
  · obtain ⟨req', h', h⟩ := bind_ok.1 h
    cases h
    exact ⟨inspectPathTagsWithID_ok hplans, strict, _, h'⟩

/-- Every path-bound field holds its segment. -/
def HoldsSegments (env : BindEnv ContentType) (plans : List PathFieldPlan)
    (r : HttpRequest ContentType) (req : StructValue) : Prop :=
  ∀ p ∈ plans, get req p.selector = setPathField env p.kind (r.params p.segment)

/-- The body assigns a path-bound field nothing, or in the end its segment. -/
def LeavesSegments (env : BindEnv ContentType) (t : StructType) (plans : List PathFieldPlan)
    (r : HttpRequest ContentType) : Prop :=
  r.body = "" ∨ ∀ as, bindBody env r.contentType t r.body = .ok as → ∀ p ∈ plans,
    ∀ v, lastAssigned as p.selector = some v → setPathField env p.kind (r.params p.segment) = some v

theorem segments_iff (h : Dispatches env t plans r req) :
    HoldsSegments env plans r req ↔ LeavesSegments env t plans r := by
  obtain ⟨hplans, strict, check, h⟩ := h.dispatched
  obtain ⟨req0, h0, hreq⟩ := dispatched_ok h
  have hnodup := (plansOf_inspectPathTags hplans).sublist.nodup t.selectors_nodup
  have hset := fun p (hp : p ∈ plans) => applyPathBinding_ok hnodup h0 hp
  rcases hreq with ⟨hbody, rfl⟩ | ⟨hbody, as, has, rfl⟩
  · refine ⟨fun _ => .inl hbody, fun _ p hp => ?_⟩
    obtain ⟨v, hv, hget⟩ := hset p hp
    rw [hget, hv]
  · have hfield : ∀ p ∈ plans, get (setAll req0 as) p.selector =
        (lastAssigned as p.selector).or (setPathField env p.kind (r.params p.segment)) := by
      intro p hp
      obtain ⟨v, hv, hget⟩ := hset p hp
      rw [get_setAll_lastAssigned, hget, hv]
    constructor
    · intro hholds
      refine .inr fun as' has' p hp v hlast => ?_
      obtain rfl : as = as' := ok.inj (has.symm.trans has')
      rw [← hholds p hp, hfield p hp, hlast, some_or]
    · rintro (hempty | hleaves) p hp
      · exact absurd hempty hbody
      · rw [hfield p hp]
        cases hlast : lastAssigned as p.selector with
        | none => rw [none_or]
        | some v => rw [some_or, hleaves as has p hp v hlast]

/-- A JSON body leaves the segments where every path-bound field is hidden from JSON. -/
theorem leavesSegments_of_hidden
    (hhidden : ∀ f ∈ t.fields, f.selector ∈ plans.map selector → f.jsonTag = "-")
    (hjson : env.isJSON r.contentType = true) : LeavesSegments env t plans r := by
  refine .inr fun as has p hp v hlast => ?_
  obtain ⟨q, hq, rfl⟩ := map_eq_some_iff.1 hlast
  have hqmem := mem_reverse.1 (mem_of_find?_eq_some hq)
  have hqsel : q.1 = p.selector := by simpa using find?_some hq
  rw [bindBody, if_pos hjson, bindJSON] at has
  split at has
  · obtain ⟨_, f, hkey, hsel⟩ := mem_jsonAssignments env has hqmem
    obtain ⟨hf, htag⟩ := resolveKey_jsonTag hkey
    exact absurd (hhidden f hf (by rw [hsel, hqsel]; exact mem_map_of_mem hp)) htag
  · cases has
    cases hqmem
  · cases has

end

/-! ### A tenant in the URL -/

/-- A request that names its tenant in the URL, with the given JSON tag on that field. -/
def tenantOrder (jsonTag : String) : StructType where
  fields :=
    [{ selector := "TenantID", name := "TenantID", kind := .string, jsonTag, pathTag := "tenant" },
     { selector := "Code", name := "Code", kind := .string, jsonTag := "code" }]
  selectors_nodup := by simp

/-- Bodies are JSON, and no field needs a parser from outside. -/
def jsonOnly : BindEnv Unit where
  isLetter := Char.isAlphanum
  foldRune := id
  parseFloat _ _ := none
  parseUUID _ := none
  decodeOther _ _ := none
  isJSON _ := true
  bindOther _ _ _ := none

/-- A request for the tenant acme whose body names another one. -/
def otherTenant : HttpRequest Unit where
  params segment := if segment = "tenant" then "acme" else ""
  contentType := ()
  body := "\x7b\"code\":\"a1\",\"tenantid\":\"evil\"\x7d"

end Omnicore.Web
