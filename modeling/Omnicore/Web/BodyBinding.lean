import Mathlib.Data.List.Induction
import Omnicore.Lib.Decimal
import Omnicore.Lib.Document
import Omnicore.Lib.Except
import Omnicore.Lib.Json

/-!
# Binding a request body to a struct

A handler binds the body of a request to the struct it declares.  The decoder is selected by the
content type: a JSON text is decoded member by member, each to the field its name resolves to; the
other formats have decoders of their own, with their own rules of names.

## Main definitions

* `StructField`, `StructType` : a struct as far as reflection tells its fields apart.
* `resolveKey` : the field a JSON member is decoded into.
* `bindBody` : the assignments of a body.
-/

namespace Omnicore.Web

open List AssocMap

/-! ### Structs -/

/-- The types of fields the decoders tell apart. -/
inductive FieldKind where
  | string
  | int (bits : ℕ)
  | uint (bits : ℕ)
  | float (bits : ℕ)
  | bool
  | uuid
  | domainID
  | pointer (typeName : String)
  | list (typeName : String)
  | struct (typeName : String)
  | other (typeName : String)
  deriving DecidableEq, Repr

/-- Whether a field is embedded in its struct, by its type alone. -/
inductive Embedding where
  | none
  /-- An embedded struct, or a pointer to one. -/
  | struct
  | other
  deriving DecidableEq, Repr

/-- A field of a struct, or one promoted from an embedded struct. -/
structure StructField where
  /-- The selector of the field, unique in the struct. -/
  selector : String
  name : String
  kind : FieldKind
  jsonTag : String := ""
  pathTag : String := ""
  queryTag : String := ""
  /-- The JSON tags of the embedded structs it is promoted through, from the outside. -/
  within : List String := []
  exported : Bool := true
  embedding : Embedding := .none
  deriving DecidableEq, Repr

/-- Zero for a field of the struct itself. -/
def StructField.depth (f : StructField) : ℕ := f.within.length

def StructField.anonymous (f : StructField) : Bool := f.embedding ≠ .none

/-- A struct type. -/
structure StructType where
  fields : List StructField
  selectors_nodup : (fields.map StructField.selector).Nodup

/-- A value of a struct type: the fields that were set, by selector. -/
abbrev StructValue := AssocMap String Value

/-! ### Environment -/

/-- The parsers and character tables of the standard library, the decoder of the types with rules of
their own, and the decoders of the formats other than JSON. -/
structure BindEnv (ContentType : Type) where
  /-- A letter or a digit of any script. -/
  isLetter : Char → Bool
  /-- The least character that differs from one in its case only. -/
  foldRune : Char → Char
  parseFloat : ℕ → String → Option Value
  /-- The canonical spelling of an identity. -/
  parseUUID : String → Option String
  decodeOther : String → Json → Option Value
  /-- The content types decoded as JSON, member by member. -/
  isJSON : ContentType → Bool
  /-- The assignments of a body of another format, or to a struct with a decoder of its own, by
  selector. -/
  bindOther : ContentType → StructType → String → Option (List (String × Value))

variable {ContentType : Type} (env : BindEnv ContentType)

/-! ### JSON names -/

/-- The name part of a tag. -/
def tagName (tag : String) : String := String.ofList (tag.toList.takeWhile (· ≠ ','))

/-- The name of a field that is not excluded, by its tag or its own. -/
def StructField.wireName (f : StructField) : String :=
  if tagName f.jsonTag ≠ "" then tagName f.jsonTag else f.name

/-- The decoder takes the name of a tag: one of letters, digits and punctuation, but for quotes,
backslashes and the comma that ends it. -/
def namedBy (tag : String) : Bool :=
  tagName tag ≠ "" && (tagName tag).toList.all fun c =>
    "!#$%&()*+-./:;<=>?@[]^_\x7b|\x7d~ ".toList.contains c || env.isLetter c

/-- The field is named by its tag. -/
def StructField.tagged (f : StructField) : Bool := namedBy env f.jsonTag

/-- The name of a field in JSON, none where it takes no part.  An embedded struct takes part under
the name of its tag; without one its fields do, in its place. -/
def StructField.jsonName (f : StructField) : Option String :=
  if !(f.exported || f.embedding = .struct) || f.jsonTag = "-" ||
      f.within.any (fun tag => tag = "-" || namedBy env tag) then none
  else if f.tagged env then some (tagName f.jsonTag)
  else if f.embedding = .struct then none
  else some f.name

/-- The field `f` hides the field `g` of the same name: it is nearer, or tagged where `g` is
not. -/
def StructField.hides (f g : StructField) : Bool :=
  f.depth < g.depth || f.depth = g.depth && f.tagged env && !g.tagged env

/-- The fields that take part in JSON: of several with one name, the one that hides all others. -/
def StructType.jsonFields (t : StructType) : List StructField :=
  t.fields.filter fun f => (f.jsonName env).isSome &&
    t.fields.all fun g => g = f || g.jsonName env ≠ f.jsonName env || f.hides env g

/-- A name without regard to case. -/
def foldName (name : String) : List Char :=
  name.toList.map fun c => if c.toNat < 128 then c.toUpper else env.foldRune c

/-- The field a member is decoded into: one of its name, or the first of its name in another
case. -/
def resolveKey (t : StructType) (key : String) : Option StructField :=
  ((t.jsonFields env).find? (·.jsonName env = some key)).or
    ((t.jsonFields env).find? fun f =>
      (f.jsonName env).map (foldName env) = some (foldName env key))

/-! ### Decoding -/

/-- What decoding a member does to its field. -/
inductive Decoded where
  | set (v : Value)
  | keep
  /-- A value of another type: the rest of the body is decoded before this is reported. -/
  | mismatch
  /-- The field's own decoder failed, which ends the decoding. -/
  | fail
  deriving DecidableEq

/-- A parsed value is set; otherwise something is wrong with it. -/
def Decoded.ofOption (wrong : Decoded) : Option Value → Decoded
  | some v => .set v
  | none => wrong

/-- Decode a JSON value into a field.  A null leaves the field alone, but for an identity, whose own
decoder reads it as the empty one. -/
def decodeField : FieldKind → Json → Decoded
  | .string, .str s => .set (.str s)
  | .int bits, .num text => .ofOption .mismatch ((Decimal.parseInt bits text).map .int)
  | .uint bits, .num text => .ofOption .mismatch ((Decimal.parseUint bits text).map .int)
  | .float bits, .num text => .ofOption .mismatch (env.parseFloat bits text)
  | .bool, .bool b => .set (.bool b)
  | .uuid, .str s => .ofOption .fail ((env.parseUUID s).map .str)
  | .domainID, .str s => .set (.str s)
  | .domainID, .null => .set (.str "")
  | .pointer typeName, j | .list typeName, j | .struct typeName, j | .other typeName, j =>
    .ofOption .mismatch (env.decodeOther typeName j)
  | _, .null => .keep
  | _, _ => .mismatch

/-- The assignments of the members of an object, in order; unknown names are skipped.  The first
mismatch is reported by the name of its field when all members have been decoded. -/
def jsonAssignments (t : StructType) :
    Option String → List (String × Json) → Except String (List (String × Value))
  | none, [] => .ok []
  | some name, [] => .error name
  | saved, (key, j) :: members =>
    match resolveKey env t key with
    | none => jsonAssignments t saved members
    | some f =>
      match decodeField env f.kind j with
      | .keep => jsonAssignments t saved members
      | .mismatch => jsonAssignments t (saved.or (f.jsonName env)) members
      | .fail => .error ""
      | .set v => do
        let as ← jsonAssignments t saved members
        return (f.selector, v) :: as

/-- The assignments of a JSON text; only an object, or null, can be decoded into a struct. -/
def bindJSON (t : StructType) (body : String) : Except String (List (String × Value)) :=
  match Json.read body with
  | some (.obj members) => jsonAssignments env t none members
  | some .null => .ok []
  | _ => .error ""

/-- The assignments of a body, by the decoder its content type selects; a failure names the field
of a JSON mismatch. -/
def bindBody (ct : ContentType) (t : StructType) (body : String) :
    Except String (List (String × Value)) :=
  if env.isJSON ct then bindJSON env t body
  else match env.bindOther ct t body with
    | some as => .ok as
    | none => .error ""

/-! ### Assignments -/

/-- The last assignment to a selector. -/
def lastAssigned (as : List (String × Value)) (selector : String) : Option Value :=
  (as.reverse.find? (·.1 = selector)).map Prod.snd

/-- After the assignments a field holds the last value assigned to it, or what it held. -/
theorem get_setAll_lastAssigned (v : StructValue) (as : List (String × Value)) (selector : String) :
    get (setAll v as) selector = (lastAssigned as selector).or (get v selector) := by
  induction as using reverseRecOn with
  | nil => rfl
  | append_singleton as p ih =>
    rw [setAll, foldl_append, foldl_cons, foldl_nil, get_set, ← setAll, ih]
    simp only [lastAssigned, reverse_append, reverse_cons, reverse_nil,
      nil_append, cons_append, find?_cons]
    by_cases hp : p.1 = selector
    · simp [hp]
    · simp [hp]

theorem mem_jsonAssignments {t : StructType} {saved : Option String}
    {members : List (String × Json)} {as : List (String × Value)}
    (h : jsonAssignments env t saved members = .ok as) {p : String × Value} (hp : p ∈ as) :
    ∃ key f, resolveKey env t key = some f ∧ f.selector = p.1 := by
  induction members generalizing as saved with
  | nil =>
    cases saved with
    | none =>
      cases h
      cases hp
    | some name => cases h
  | cons m members ih =>
    obtain ⟨key, j⟩ := m
    rw [jsonAssignments] at h
    cases hkey : resolveKey env t key with
    | none =>
      simp only [hkey] at h
      exact ih h hp
    | some f =>
      simp only [hkey] at h
      cases hdec : decodeField env f.kind j with
      | keep | mismatch =>
        simp only [hdec] at h
        exact ih h hp
      | fail => simp [hdec] at h
      | set v =>
        simp only [hdec] at h
        obtain ⟨as', has', h⟩ := Except.bind_ok.1 h
        cases h
        rcases mem_cons.1 hp with rfl | hp
        · exact ⟨key, f, hkey, rfl⟩
        · exact ih has' hp

theorem resolveKey_jsonTag {env : BindEnv ContentType} {t : StructType} {key : String}
    {f : StructField} (h : resolveKey env t key = some f) : f ∈ t.fields ∧ f.jsonTag ≠ "-" := by
  have hmem : f ∈ t.jsonFields env := by
    rcases Option.or_eq_some_iff.1 h with h | ⟨-, h⟩
    · exact mem_of_find?_eq_some h
    · exact mem_of_find?_eq_some h
  obtain ⟨hf, hname⟩ := mem_filter.1 hmem
  refine ⟨hf, fun htag => ?_⟩
  simp [StructField.jsonName, htag] at hname

end Omnicore.Web
