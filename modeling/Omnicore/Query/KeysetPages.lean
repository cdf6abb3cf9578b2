import Mathlib.Data.Char
import Mathlib.Data.List.Lex
import Mathlib.Data.List.Sort
import Mathlib.Data.Prod.Lex
import Mathlib.Data.Sum.Order
import Omnicore.Lib.Keyset
import Omnicore.Query.DocumentFilter
import Omnicore.Web.Restriction

/-!
# Keyset pages

The document reader serves a listing by pages.  The documents are ordered by the sort columns and
then by their identity.  A page that is not the last carries a cursor, the tuple of the sort values
of its last document, and the request for the next page turns the tuple into a cascade of range
conditions.  The cursor travels as a JSON text, in which a number comes back as a floating-point
one and an instant as a text.

## Main definitions

* `buildStableSortDoc`, `listing` : the order of a listing.
* `encodeTupleCursor`, `buildKeysetFilter` : the cursor, and the documents it leads to.
* `readPage`, `walk` : one page, and the pages from the first to the last.
* `resumes` : the cursor of a document leads to another.

## Main results

* `keyset_matches` : the cascade of a cursor selects the documents it leads to.
* `walk_complete_iff` : when every walk over a collection returns the listing.
* `walk_complete_of_uniform` : it does when every sort column holds texts, or integers that a
  floating-point number can hold.
-/

namespace Omnicore.Queryschema

open List AssocMap Value

/-! ### Documents -/

/-- The value under a path through sub-documents, null where the path leads nowhere. -/
def valueAtParts : Value → List String → Value
  | v, [] => v
  | .doc m, part :: parts => valueAtParts ((get m part).getD .null) parts
  | _, _ :: _ => .null

/-- The value that the document store compares under a dotted path. -/
def docValue (d : Doc) (path : String) : Value := valueAtParts (.doc d) (segments path)

/-- The place of a value in the order of a sort: its type first, then the value. -/
def sortKey (v : Value) : ℕ ×ₗ ℤ ×ₗ List Char :=
  toLex (v.rank, toLex (match v with
    | .bool b => (b.toInt, [])
    | .int n => (n, [])
    | .str s => (0, s.toList)
    | .time ms => ((ms : ℤ), [])
    | _ => (0, [])))

/-- A sort column, as a path into the documents. -/
structure OrderByField where
  field : String
  desc : Bool
  deriving DecidableEq, Repr

/-- The sort document: the columns, and the identity unless it is one of them. -/
def buildStableSortDoc (sortFields : List OrderByField) (reverse : Bool) : List OrderByField :=
  let doc := sortFields.map fun s => OrderByField.mk s.field (s.desc != reverse)
  if sortFields.any (·.field = "_id") then doc else doc ++ [⟨"_id", reverse⟩]

/-- The order of a sort document: by the first column that tells two documents apart. -/
def docLE : List OrderByField → Doc → Doc → Bool
  | [], _, _ => true
  | t :: ts, x, y =>
    let a := sortKey (docValue x t.field)
    let b := sortKey (docValue y t.field)
    if a = b then docLE ts x y else if t.desc then decide (b < a) else decide (a < b)

/-- The documents that meet a condition, in the order of a sort document. -/
def listing (sortDoc : List OrderByField) (p : Doc → Bool) (docs : List Doc) : List Doc :=
  (docs.filter p).insertionSort fun x y => docLE sortDoc x y

/-! ### Cursors -/

/-- The value under the parts of a path, as the reader walks a decoded document.  The walk goes on
through a plain map only, and a nested document has the map type of the driver. -/
def lookupParts : (plainMap : Bool) → Value → List String → Value
  | _, v, [] => v
  | true, .doc m, part :: parts => lookupParts false ((get m part).getD .null) parts
  | _, _, _ :: _ => .null

/-- The sort value that a cursor takes from a document. -/
def lookupDocPath (d : Doc) (path : String) : Value := lookupParts true (.doc d) (segments path)

/-- The floating-point number nearest to an integer: its 53 leading bits, rounded half to even. -/
def float64 (n : ℤ) : ℤ :=
  let m := n.natAbs
  let e := Nat.log2 m - 52
  let q := m / 2 ^ e
  let r := m % 2 ^ e
  let q := if 2 ^ e < 2 * r ∨ 2 ^ e = 2 * r ∧ q % 2 = 1 then q + 1 else q
  n.sign * (q * 2 ^ e : ℕ)

/-- What a sort value is when it comes back in a cursor.  `timeText` is the JSON text of an
instant. -/
def cursorValue (timeText : ℕ → String) : Value → Value
  | .int n => .int (float64 n)
  | .time ms => .str (timeText ms)
  | v => v

/-- The identity of a document, as a text. -/
def idText (d : Doc) : String :=
  match get d "_id" with
  | some (.str s) => s
  | _ => ""

/-- The tuple of a cursor: the sort values of a document and its identity. -/
abbrev Cursor := List Value

/-- The tuple of a document, as the next request decodes it. -/
def encodeTupleCursor (timeText : ℕ → String) (sortFields : List OrderByField) (d : Doc) : Cursor :=
  (sortFields.map fun s => cursorValue timeText (lookupDocPath d s.field)) ++ [.str (idText d)]

/-- The slots of a cascade, which ends at the identity. -/
def keysetSlots (sortFields : List OrderByField) : List OrderByField :=
  match sortFields.findIdx? (·.field = "_id") with
  | some i => sortFields.take (i + 1)
  | none => sortFields ++ [⟨"_id", false⟩]

/-- The arms of a cascade: equalities on the slots before, and a range on the slot.  An arm is a
map, so the range takes the place of an equality on the same field. -/
def keysetArms (backward : Bool) : List (String × Value) → List (OrderByField × Value) →
    List (AssocMap String MongoCond)
  | _, [] => []
  | prior, (slot, v) :: rest =>
    let arm := prior.foldl (fun arm p => AssocMap.set arm p.1 (.value p.2)) []
    let range : MongoCond := if slot.desc != backward then .lt v else .gt v
    set arm slot.field range :: keysetArms backward (prior ++ [(slot.field, v)]) rest

/-- The arms of the cascade for the tuple of a cursor. -/
def buildKeysetFilter (tuple : Cursor) (sortFields : List OrderByField) (backward : Bool) :
    List (AssocMap String MongoCond) :=
  keysetArms backward [] ((keysetSlots sortFields).zip tuple)

/-- Some arm of a cascade matches a document. -/
def keysetMatches (arms : List (AssocMap String MongoCond)) (d : Doc) : Bool :=
  arms.any fun arm => arm.all fun p => p.2.matches Char.toLower (docValue d p.1)

/-! ### Pages -/

/-- A page of a listing. -/
structure Page where
  items : List Doc
  hasNextPage : Bool
  hasPreviousPage : Bool
  endCursor : Option Cursor
  startCursor : Option Cursor

/-- The documents that the filter of a request selects. -/
def selected (filter : Filter) (d : Doc) : Bool :=
  (applyFilter filter).matches Char.toLower (docValue d)

/-- The documents a page is taken from, in the order of the query. -/
def found (docs : List Doc) (filter : Filter) (sortFields : List OrderByField) (backward : Bool)
    (cursor : Option Cursor) : List Doc :=
  let keyset := cursor.map fun k => buildKeysetFilter k sortFields backward
  listing (buildStableSortDoc sortFields backward)
    (fun d => selected filter d && keyset.all (keysetMatches · d)) docs

/-- One page: after the cursor, or before it when the request goes backward. -/
def readPage (timeText : ℕ → String) (docs : List Doc) (filter : Filter)
    (sortFields : List OrderByField) (limit : ℕ) (backward : Bool) (cursor : Option Cursor) :
    Except String Page :=
  if cursor.any fun k => k.length - 1 ≠ sortFields.length then
    .error "cursor tuple length does not match sort field count"
  else
    -- one document more than the page proves that there is another page
    let fetched := (found docs filter sortFields backward cursor).take (limit + 1)
    let localHasMore : Bool := limit < fetched.length
    let items := fetched.take limit
    let items := if backward then items.reverse else items
    let hasNext := if backward then cursor.isSome else localHasMore
    let hasPrev := if backward then localHasMore else cursor.isSome
    .ok {
      items
      hasNextPage := hasNext
      hasPreviousPage := hasPrev
      endCursor :=
        if hasNext then items.getLast?.map (encodeTupleCursor timeText sortFields) else none
      startCursor :=
        if hasPrev then items.head?.map (encodeTupleCursor timeText sortFields) else none }

/-- Follow the end cursors until there is no next page. -/
def walk (timeText : ℕ → String) (docs : List Doc) (filter : Filter)
    (sortFields : List OrderByField) (limit : ℕ) : ℕ → Option Cursor → Option (List Doc)
  | 0, _ => none
  | fuel + 1, after =>
    match readPage timeText docs filter sortFields limit false after with
    | .error _ => none
    | .ok page =>
      if page.hasNextPage then
        (walk timeText docs filter sortFields limit fuel page.endCursor).map (page.items ++ ·)
      else some page.items

/-- A collection: every document has an identity of its own, a text. -/
structure Collection where
  docs : List Doc
  ids : ∀ d ∈ docs, ∃ s, get d "_id" = some (.str s)
  nodup : (docs.map idText).Nodup

/-! ### The order of a listing -/

/-- The place of a document in a column, turned over where the column descends. -/
def placeIn (x : Doc) (t : OrderByField) : (ℕ ×ₗ ℤ ×ₗ List Char) ⊕ₗ (ℕ ×ₗ ℤ ×ₗ List Char)ᵒᵈ :=
  let key := sortKey (docValue x t.field)
  if t.desc then .inrₗ (.toDual key) else .inlₗ key

variable {d x y : Doc} {t : OrderByField} {ts : List OrderByField} {field s : String}

theorem placeIn_eq_iff :
    placeIn x t = placeIn y t ↔ sortKey (docValue x t.field) = sortKey (docValue y t.field) := by
  cases h : t.desc <;> simp [placeIn, h]

theorem docLE_iff : docLE ts x y = true ↔ ts.map (placeIn x) ≤ ts.map (placeIn y) := by
  induction ts with
  | nil => simp [docLE]
  | cons t ts ih =>
    rw [← not_lt] at ih ⊢
    simp only [map_cons, cons_lt_cons_iff, docLE, placeIn]
    rcases lt_trichotomy (sortKey (docValue x t.field)) (sortKey (docValue y t.field))
      with h | h | h
    · cases t.desc <;> simp [h, h.ne, h.ne', h.not_gt]
    · simpa [h] using ih
    · cases t.desc <;> simp [h, h.ne, h.ne', h.not_gt]

theorem docLE_total (ts : List OrderByField) (x y : Doc) :
    docLE ts x y = true ∨ docLE ts y x = true := by
  rw [docLE_iff, docLE_iff]
  exact le_total _ _

theorem docLE_trans {z : Doc} (hxy : docLE ts x y = true) (hyz : docLE ts y z = true) :
    docLE ts x z = true := by
  rw [docLE_iff] at *
  exact hxy.trans hyz

theorem docLE_antisymm (hxy : docLE ts x y = true) (hyx : docLE ts y x = true) (ht : t ∈ ts) :
    sortKey (docValue x t.field) = sortKey (docValue y t.field) :=
  placeIn_eq_iff.1 (map_inj_left.1 ((docLE_iff.1 hxy).antisymm (docLE_iff.1 hyx)) t ht)

theorem docValue_id : docValue d "_id" = (get d "_id").getD .null := by
  have h : segments "_id" = ["_id"] := by decide
  rfl

theorem idText_of_get (h : get d "_id" = some (.str s)) : idText d = s := by
  rw [idText, h]

theorem mem_buildStableSortDoc (sortFields : List OrderByField) (reverse : Bool) :
    ∃ t ∈ buildStableSortDoc sortFields reverse, t.field = "_id" := by
  unfold buildStableSortDoc
  split_ifs with h
  · obtain ⟨s, hs, hid⟩ := any_eq_true.1 h
    exact ⟨_, mem_map_of_mem hs, by simpa using hid⟩
  · exact ⟨⟨"_id", reverse⟩, by simp, rfl⟩

variable {coll : Collection} {sortFields : List OrderByField} {reverse : Bool}

theorem Collection.eq_of_docLE (hx : x ∈ coll.docs) (hy : y ∈ coll.docs)
    (hxy : docLE (buildStableSortDoc sortFields reverse) x y = true)
    (hyx : docLE (buildStableSortDoc sortFields reverse) y x = true) : x = y := by
  obtain ⟨t, ht, hid⟩ := mem_buildStableSortDoc sortFields reverse
  have hkey := docLE_antisymm hxy hyx ht
  obtain ⟨a, ha⟩ := coll.ids x hx
  obtain ⟨b, hb⟩ := coll.ids y hy
  rw [hid, docValue_id, docValue_id, ha, hb] at hkey
  have hab : a = b := by simpa [sortKey, rank, String.toList_inj] using hkey
  refine inj_on_of_nodup_map coll.nodup hx hy ?_
  rw [idText_of_get ha, idText_of_get hb, hab]

instance : Std.Total fun x y => docLE ts x y = true := ⟨docLE_total ts⟩

instance : IsTrans Doc fun x y => docLE ts x y = true := ⟨fun _ _ _ => docLE_trans⟩

theorem listing_eq {p : Doc → Bool} {xs : List Doc}
    (hmem : ∀ d, d ∈ xs ↔ d ∈ coll.docs ∧ p d = true) (hnodup : xs.Nodup)
    (hsorted : xs.Pairwise fun x y => docLE (buildStableSortDoc sortFields reverse) x y = true) :
    listing (buildStableSortDoc sortFields reverse) p coll.docs = xs := by
  have hdocs : coll.docs.Nodup := List.Nodup.of_map _ coll.nodup
  have hperm : (listing (buildStableSortDoc sortFields reverse) p coll.docs).Perm xs := by
    refine (perm_insertionSort _ _).trans ?_
    rw [perm_ext_iff_of_nodup (hdocs.filter p) hnodup]
    intro d
    rw [mem_filter, hmem]
  refine hperm.eq_of_pairwise ?_ (pairwise_insertionSort _ _) hsorted
  intro x y hx hy hxy hyx
  exact coll.eq_of_docLE ((hmem x).1 (hperm.mem_iff.1 hx)).1 ((hmem y).1 hy).1 hxy hyx

theorem listing_spec (p : Doc → Bool) :
    (∀ d, d ∈ listing (buildStableSortDoc sortFields reverse) p coll.docs ↔
        d ∈ coll.docs ∧ p d = true) ∧
      (listing (buildStableSortDoc sortFields reverse) p coll.docs).Nodup ∧
      (listing (buildStableSortDoc sortFields reverse) p coll.docs).Pairwise
        fun x y => docLE (buildStableSortDoc sortFields reverse) x y = true := by
  have hdocs : coll.docs.Nodup := List.Nodup.of_map _ coll.nodup
  refine ⟨fun d => ?_, ?_, pairwise_insertionSort _ _⟩
  · rw [listing, mem_insertionSort, mem_filter]
  · exact (perm_insertionSort _ _).nodup_iff.2 (hdocs.filter p)

theorem listing_and (coll : Collection) (sortFields : List OrderByField) (reverse : Bool)
    (p q : Doc → Bool) :
    listing (buildStableSortDoc sortFields reverse) (fun d => p d && q d) coll.docs =
      (listing (buildStableSortDoc sortFields reverse) p coll.docs).filter q := by
  obtain ⟨hmem, hnodup, hsorted⟩ := listing_spec p
  refine listing_eq (fun d => ?_) (hnodup.filter q) (hsorted.filter q)
  rw [mem_filter, hmem, Bool.and_eq_true, and_assoc]

/-! ### What a cursor leads to -/

variable {timeText : ℕ → String}

/-- The value of a field lies past a carried one. -/
def past (desc : Bool) (v carried : Value) : Bool :=
  if desc then below v carried else below carried v

/-- A cascade that carries the values `c` leads to a document: at some slot the value of the
document lies past the carried one, and on the fields of the slots before, other than its own, it
is the carried one. -/
def leadsTo (c : String → Value) (y : Doc) : List String → List OrderByField → Bool
  | _, [] => false
  | prior, slot :: rest =>
    (prior.all fun f => f = slot.field || docValue y f = c f) &&
        past slot.desc (docValue y slot.field) (c slot.field) ||
      leadsTo c y (prior ++ [slot.field]) rest

/-- The value of a field that the cursor of a document carries. -/
def carried (timeText : ℕ → String) (x : Doc) (field : String) : Value :=
  cursorValue timeText (lookupDocPath x field)

/-- The cursor of a document leads to another. -/
def resumes (timeText : ℕ → String) (sortFields : List OrderByField) (x y : Doc) : Bool :=
  leadsTo (carried timeText x) y [] (keysetSlots sortFields)

variable {c : String → Value}

theorem get_equalities (prior : List String) (f : String) :
    get ((prior.map fun f => (f, c f)).foldl
        (fun arm p => set arm p.1 (.value p.2)) []) f =
      if f ∈ prior then some (MongoCond.value (c f)) else none := by
  have hset : ((prior.map fun f => (f, c f)).foldl
      (fun arm p => set arm p.1 (.value p.2)) [] : AssocMap String MongoCond) =
      setAll [] (prior.map fun f => (f, MongoCond.value (c f))) := by
    rw [setAll, foldl_map, foldl_map]
  rw [hset]
  split_ifs with hf
  · refine get_setAll_of_mem [] (mem_map_of_mem hf) ?_
    rintro w hw
    obtain ⟨g, -, hg⟩ := mem_map.1 hw
    obtain ⟨rfl, rfl⟩ := Prod.mk.inj hg
    rfl
  · rw [get_setAll_of_not_mem, get_nil]
    simpa [AssocMap.keys] using hf

theorem arm_all {prior : List String} {c : String → Value} {range : MongoCond}
    {P : String × MongoCond → Bool} :
    (set ((prior.map fun f => (f, c f)).foldl
        (fun arm p => set arm p.1 (.value p.2)) []) field range).all P = true ↔
      (∀ f ∈ prior, f = field ∨ P (f, .value (c f)) = true) ∧ P (field, range) = true := by
  rw [all_iff_get ?nodup]
  case nodup =>
    refine keys_set_nodup ?_
    exact foldlRecOn (motive := fun m => (AssocMap.keys m).Nodup) _ _ nodup_nil
      fun _ h _ _ => keys_set_nodup h
  simp only [get_set, get_equalities]
  constructor
  · intro h
    refine ⟨fun f hf => ?_, h field range (if_pos rfl)⟩
    by_cases hfield : field = f
    · exact .inl hfield.symm
    · exact .inr (h f _ (by rw [if_neg hfield, if_pos hf]))
  · rintro ⟨hprior, hrange⟩ k v hk
    split_ifs at hk with hfield hmem
    · obtain rfl := Option.some.inj hk
      exact hfield ▸ hrange
    · obtain rfl := Option.some.inj hk
      exact (hprior k hmem).resolve_left (Ne.symm hfield)

theorem keysetArms_matches (prior : List String) (slots : List OrderByField) :
    keysetMatches (keysetArms false (prior.map fun f => (f, c f))
      (slots.map fun s => (s, c s.field))) y = leadsTo c y prior slots := by
  induction slots generalizing prior with
  | nil => rfl
  | cons slot slots ih =>
    have hprior : (prior.map fun f => (f, c f)) ++ [(slot.field, c slot.field)] =
        (prior ++ [slot.field]).map fun f => (f, c f) := by simp
    rw [map_cons, keysetArms, hprior, keysetMatches, any_cons, ← keysetMatches, ih, leadsTo]
    congr 1
    rw [Bool.eq_iff_iff, arm_all, Bool.and_eq_true, all_eq_true]
    refine and_congr (forall₂_congr fun f _ => ?_) ?_
    · simp [MongoCond.matches]
    · cases hd : slot.desc <;> simp [past, MongoCond.matches]

theorem lookupDocPath_id (h : get d "_id" = some (.str s)) : lookupDocPath d "_id" = .str s := by
  have hseg : segments "_id" = ["_id"] := by decide
  simp [lookupDocPath, hseg, lookupParts, h]

theorem keysetSlots_cases (sortFields : List OrderByField) :
    (keysetSlots sortFields = sortFields ++ [⟨"_id", false⟩] ∧ ∀ s ∈ sortFields, s.field ≠ "_id") ∨
      ∃ pre t rest, sortFields = pre ++ t :: rest ∧ t.field = "_id" ∧
        keysetSlots sortFields = pre ++ [t] := by
  rw [keysetSlots]
  cases hidx : sortFields.findIdx? (·.field = "_id") with
  | none => exact .inl ⟨rfl, fun s hs => by simpa using findIdx?_eq_none_iff.1 hidx s hs⟩
  | some i =>
    obtain ⟨hi, hid, -⟩ := findIdx?_eq_some_iff_getElem.1 hidx
    exact .inr ⟨sortFields.take i, sortFields[i], sortFields.drop (i + 1), by simp,
      by simpa using hid, take_succ_eq_append_getElem hi⟩

/-- The slots of a cascade, each with the value that the cursor of a document carries. -/
theorem zip_slots (h : get d "_id" = some (.str s)) :
    (keysetSlots sortFields).zip (encodeTupleCursor timeText sortFields d) =
      (keysetSlots sortFields).map fun t => (t, carried timeText d t.field) := by
  have hzip (l : List OrderByField) (r : List Value) :
      l.zip ((l.map fun t => carried timeText d t.field) ++ r) =
        l.map fun t => (t, carried timeText d t.field) := by
    induction l with
    | nil => rfl
    | cons t l ih => simp [ih]
  rcases keysetSlots_cases sortFields with ⟨hslots, -⟩ | ⟨pre, t, rest, rfl, -, hslots⟩
  · have hid : carried timeText d "_id" = .str (idText d) := by
      rw [carried, lookupDocPath_id h, idText_of_get h]
      rfl
    rw [hslots, ← hzip _ [], append_nil, map_append, map_singleton, hid]
    rfl
  · rw [hslots, ← hzip _ (rest.map (carried timeText d ·.field) ++ [.str (idText d)])]
    simp [encodeTupleCursor, carried]

/-- **The cascade of a cursor** selects the documents that the cursor leads to. -/
theorem keyset_matches (h : get d "_id" = some (.str s)) (y : Doc) :
    keysetMatches (buildKeysetFilter (encodeTupleCursor timeText sortFields d) sortFields false) y =
      resumes timeText sortFields d y := by
  rw [buildKeysetFilter, zip_slots h]
  exact keysetArms_matches [] (keysetSlots sortFields)

/-! ### The walk -/

variable {filter : Filter}

theorem walk_eq (docs : List Doc) (limit fuel : ℕ) {after : Option Cursor}
    (hlen : ∀ k ∈ after, k.length - 1 = sortFields.length) :
    walk timeText docs filter sortFields limit fuel after =
      Keyset.walk (found docs filter sortFields false) (encodeTupleCursor timeText sortFields) limit
        fuel after := by
  induction fuel generalizing after with
  | zero => rfl
  | succ fuel ih =>
    have hpage : (after.any fun k => k.length - 1 ≠ sortFields.length) = false := by
      cases after with
      | none => rfl
      | some k => simpa using hlen k rfl
    have htake : ((found docs filter sortFields false after).take (limit + 1)).take limit =
        (found docs filter sortFields false after).take limit := by
      rw [take_take, Nat.min_eq_left (Nat.le_succ limit)]
    have hread : readPage timeText docs filter sortFields limit false after = .ok {
        items := (found docs filter sortFields false after).take limit
        hasNextPage := limit < (found docs filter sortFields false after).length
        hasPreviousPage := after.isSome
        endCursor := if limit < (found docs filter sortFields false after).length then
          ((found docs filter sortFields false after).take limit).getLast?.map
            (encodeTupleCursor timeText sortFields) else none
        startCursor := if after.isSome then
          ((found docs filter sortFields false after).take limit).head?.map
            (encodeTupleCursor timeText sortFields) else none } := by
      rw [readPage, hpage, if_neg Bool.false_ne_true]
      simp [htake]
    have hnext : ∀ k ∈ ((found docs filter sortFields false after).take limit).getLast?.map
        (encodeTupleCursor timeText sortFields), k.length - 1 = sortFields.length := by
      intro k hk
      obtain ⟨d, -, rfl⟩ := Option.map_eq_some_iff.1 hk
      simp [encodeTupleCursor]
    rw [walk, hread, Keyset.walk]
    by_cases hlast : limit < (found docs filter sortFields false after).length
    · simp [hlast, ih hnext]
    · simp [hlast]

theorem found_cursor (hd : d ∈ coll.docs) :
    found coll.docs filter sortFields false (some (encodeTupleCursor timeText sortFields d)) =
      (listing (buildStableSortDoc sortFields false) (selected filter) coll.docs).filter
        (resumes timeText sortFields d) := by
  obtain ⟨s, hs⟩ := coll.ids d hd
  have hkeyset : ∀ y, keysetMatches (buildKeysetFilter (encodeTupleCursor timeText sortFields d)
      sortFields false) y = resumes timeText sortFields d y := keyset_matches hs
  simp only [found, Option.map_some, Option.all_some, hkeyset]
  exact listing_and coll sortFields false (selected filter) _

theorem found_none (docs : List Doc) (filter : Filter) :
    found docs filter sortFields false none =
      listing (buildStableSortDoc sortFields false) (selected filter) docs := by
  simp [found]

theorem docValue_idText (hd : d ∈ coll.docs) : docValue d "_id" = .str (idText d) := by
  obtain ⟨s, hs⟩ := coll.ids d hd
  rw [docValue_id, hs, idText_of_get hs]
  rfl

theorem exists_filter {xs : List Doc} (hxs : ∀ d ∈ x :: xs, d ∈ coll.docs) :
    ∃ filter, ∀ d ∈ coll.docs, selected filter d = true ↔ d ∈ x :: xs := by
  refine ⟨[("_id", .single (.clause .filterIn ((x :: xs).map fun d => .str (idText d))))], ?_⟩
  intro d hd
  have hmem : str (idText d) ∈ (x :: xs).map (fun d => str (idText d)) ↔ d ∈ x :: xs := by
    constructor
    · intro h
      obtain ⟨d', hd', heq⟩ := mem_map.1 h
      exact inj_on_of_nodup_map coll.nodup (hxs d' hd') hd (str.inj heq) ▸ hd'
    · exact mem_map_of_mem
  rw [← hmem, ← docValue_idText hd]
  simp [selected, applyFilter, MongoFilter.matches, translateFilterValue, MongoCond.matches]

/-- Over an ordered list of documents, the cursor of the last but one leads to the last and to none
before. -/
theorem resumes_of_walk (init : List Doc) (d y : Doc)
    (hmem : ∀ x ∈ init ++ [d, y], x ∈ coll.docs) (hnodup : (init ++ [d, y]).Nodup)
    (hsorted : (init ++ [d, y]).Pairwise fun x y =>
      docLE (buildStableSortDoc sortFields false) x y = true)
    (h : ∀ filter limit, 0 < limit → ∃ fuel,
      walk timeText coll.docs filter sortFields limit fuel none =
        some (listing (buildStableSortDoc sortFields false) (selected filter) coll.docs)) :
    resumes timeText sortFields d y = true ∧
      ∀ w ∈ init ++ [d], resumes timeText sortFields d w = false := by
  obtain ⟨filter, hfilter⟩ : ∃ filter, ∀ x ∈ coll.docs,
      selected filter x = true ↔ x ∈ init ++ [d, y] := by
    cases init with
    | nil => exact exists_filter hmem
    | cons x init => exact exists_filter hmem
  have hlist : listing (buildStableSortDoc sortFields false) (selected filter) coll.docs =
      init ++ [d, y] := by
    refine listing_eq (fun x => ⟨fun hx => ⟨hmem x hx, (hfilter x (hmem x hx)).2 hx⟩, ?_⟩) hnodup
      hsorted
    exact fun hx => (hfilter x hx.1).1 hx.2
  obtain ⟨fuel, hwalk⟩ := h filter (init.length + 1) (Nat.succ_pos _)
  rw [walk_eq coll.docs _ _ (by simp), hlist] at hwalk
  have hhead := Keyset.head_of_walk ((found_none _ _).trans hlist) hwalk
  have hsplit : init ++ [d, y] = (init ++ [d]) ++ [y] := by simp
  rw [found_cursor (hmem d (by simp)), hlist, head?_filter, hsplit, find?_append] at hhead
  cases hfind : (init ++ [d]).find? (resumes timeText sortFields d) with
  | none =>
    rw [hfind, Option.none_or] at hhead
    exact ⟨find?_some hhead, fun w hw => by simpa using find?_eq_none.1 hfind w hw⟩
  | some w =>
    -- a document before the last would be found first
    rw [hfind, Option.some_or] at hhead
    obtain rfl := Option.some.inj hhead
    rw [hsplit, nodup_append] at hnodup
    exact absurd rfl (hnodup.2.2 w (mem_of_find?_eq_some hfind) w (mem_singleton.2 rfl))

/-- A document comes before another in a listing. -/
def Before (sortFields : List OrderByField) (x y : Doc) : Prop :=
  docLE (buildStableSortDoc sortFields false) x y = true ∧ x ≠ y

/-- The cursor of each document leads to the documents that come after it, and to none that does
not, as long as there is one after it. -/
def Resumable (timeText : ℕ → String) (coll : Collection) (sortFields : List OrderByField) : Prop :=
  ∀ d ∈ coll.docs, ∀ y ∈ coll.docs, Before sortFields d y →
    resumes timeText sortFields d y = true ∧
      ∀ w ∈ coll.docs, docLE (buildStableSortDoc sortFields false) w d = true →
        resumes timeText sortFields d w = false

theorem found_rest (h : Resumable timeText coll sortFields) {filter : Filter} {pre rest : List Doc}
    (hsplit : listing (buildStableSortDoc sortFields false) (selected filter) coll.docs =
      pre ++ d :: rest) (hrest : rest ≠ []) :
    found coll.docs filter sortFields false (some (encodeTupleCursor timeText sortFields d)) =
      rest := by
  obtain ⟨hmem, hnodup, hsorted⟩ := listing_spec (selected filter)
  rw [hsplit] at hmem hnodup hsorted
  obtain ⟨-, hsuf, hcross⟩ := pairwise_append.1 hsorted
  obtain ⟨hd, -⟩ := pairwise_cons.1 hsuf
  have hdne := (nodup_cons.1 (nodup_append.1 hnodup).2.1).1
  have hdmem := ((hmem d).1 (by simp)).1
  have hafter : ∀ y ∈ rest, y ∈ coll.docs ∧ Before sortFields d y := fun y hy =>
    ⟨((hmem y).1 (by simp [hy])).1, hd y hy, fun heq => hdne (heq ▸ hy)⟩
  obtain ⟨y, hy⟩ := exists_mem_of_ne_nil rest hrest
  have hback := (h d hdmem y (hafter y hy).1 (hafter y hy).2).2
  have hself : resumes timeText sortFields d d = false :=
    hback d hdmem (or_self_iff.1 (docLE_total _ d d))
  have hnone : pre.filter (resumes timeText sortFields d) = [] := by
    refine filter_eq_nil_iff.2 fun w hw => ?_
    rw [hback w ((hmem w).1 (by simp [hw])).1 (hcross w hw d mem_cons_self)]
    exact Bool.false_ne_true
  have hall : rest.filter (resumes timeText sortFields d) = rest :=
    filter_eq_self.2 fun z hz => (h d hdmem z (hafter z hz).1 (hafter z hz).2).1
  rw [found_cursor hdmem, hsplit, filter_append, filter_cons, hself,
    if_neg Bool.false_ne_true, hnone, hall, nil_append]

theorem walk_of_resumable (h : Resumable timeText coll sortFields) (filter : Filter) {limit : ℕ}
    (hlimit : 0 < limit) :
    ∃ fuel, walk timeText coll.docs filter sortFields limit fuel none =
      some (listing (buildStableSortDoc sortFields false) (selected filter) coll.docs) := by
  obtain ⟨fuel, hfuel⟩ := Keyset.walk_complete hlimit (found_none coll.docs filter)
    fun _ _ _ => found_rest h
  exact ⟨fuel, by rw [walk_eq coll.docs limit fuel (by simp), hfuel]⟩

/-- **Keyset walks.**  Every walk over a collection returns the listing exactly when the cursor of
each document leads to the documents that come after it, and to none that does not. -/
theorem walk_complete_iff (timeText : ℕ → String) (coll : Collection)
    (sortFields : List OrderByField) :
    (∀ filter limit, 0 < limit → ∃ fuel, walk timeText coll.docs filter sortFields limit fuel none =
        some (listing (buildStableSortDoc sortFields false) (selected filter) coll.docs)) ↔
      Resumable timeText coll sortFields := by
  constructor
  · intro h d hd y hy ⟨hle, hne⟩
    have hpair := resumes_of_walk [] d y (by simp [hd, hy]) (by simp [hne]) (by simpa using hle) h
    refine ⟨hpair.1, fun w hw hwd => ?_⟩
    by_cases hwd' : w = d
    · exact hwd' ▸ hpair.2 d (by simp)
    have hwy : docLE (buildStableSortDoc sortFields false) w y = true := docLE_trans hwd hle
    have hwy' : w ≠ y := by
      rintro rfl
      exact hne (coll.eq_of_docLE hd hw hle hwd)
    have htriple := resumes_of_walk [w] d y (by simp [hw, hd, hy]) (by simp [hwd', hwy', hne])
      (by simp [hwd, hwy, hle]) h
    exact htriple.2 w (by simp)
  · exact fun h filter limit hlimit => walk_of_resumable h filter hlimit

/-! ### Columns that a cursor carries -/

/-- A column at the top of the documents whose values are all texts, or all integers that a
floating-point number can hold. -/
def Uniform (coll : Collection) (field : String) : Prop :=
  (∃ k, segments field = [k]) ∧
    ((∀ d ∈ coll.docs, ∃ s, docValue d field = .str s) ∨
      ∀ d ∈ coll.docs, ∃ n, docValue d field = .int n ∧ float64 n = n)

theorem lookupDocPath_top {k : String} (h : segments field = [k]) :
    lookupDocPath d field = docValue d field := by
  rw [lookupDocPath, docValue, h]
  rfl

theorem Uniform.carried_eq (h : Uniform coll field) (hd : d ∈ coll.docs) :
    carried timeText d field = docValue d field := by
  obtain ⟨⟨k, hk⟩, hval⟩ := h
  rw [carried, lookupDocPath_top hk]
  rcases hval with hstr | hint
  · obtain ⟨s, hs⟩ := hstr d hd
    rw [hs]
    rfl
  · obtain ⟨n, hn, hfloat⟩ := hint d hd
    rw [hn, cursorValue, hfloat]

theorem Uniform.below_iff (h : Uniform coll field) (hx : x ∈ coll.docs) (hy : y ∈ coll.docs) :
    below (docValue x field) (docValue y field) = true ↔
      sortKey (docValue x field) < sortKey (docValue y field) := by
  rcases h.2 with hstr | hint
  · obtain ⟨a, ha⟩ := hstr x hx
    obtain ⟨b, hb⟩ := hstr y hy
    have hlt : compare a b = .lt ↔ a.toList < b.toList := compareOfLessAndEq_eq_lt
    simp [ha, hb, below, Value.rank, Value.compare, sortKey, Prod.Lex.toLex_lt_toLex, hlt]
  · obtain ⟨a, ha, -⟩ := hint x hx
    obtain ⟨b, hb, -⟩ := hint y hy
    simp [ha, hb, below, Value.rank, Value.compare, sortKey, Prod.Lex.toLex_lt_toLex,
      compare_lt_iff_lt]

theorem Uniform.eq_iff (h : Uniform coll field) (hx : x ∈ coll.docs) (hy : y ∈ coll.docs) :
    docValue x field = docValue y field ↔
      sortKey (docValue x field) = sortKey (docValue y field) := by
  rcases h.2 with hstr | hint
  · obtain ⟨a, ha⟩ := hstr x hx
    obtain ⟨b, hb⟩ := hstr y hy
    simp [ha, hb, sortKey, rank, String.toList_inj]
  · obtain ⟨a, ha, -⟩ := hint x hx
    obtain ⟨b, hb, -⟩ := hint y hy
    simp [ha, hb, sortKey, rank]

/-- The strict order of some columns. -/
def strictlyAfter : List OrderByField → Doc → Doc → Bool
  | [], _, _ => false
  | t :: ts, d, y =>
    past t.desc (docValue y t.field) (docValue d t.field) ||
      docValue y t.field = docValue d t.field && strictlyAfter ts d y

theorem strictlyAfter_eq (h : ∀ t ∈ ts, Uniform coll t.field) (hd : d ∈ coll.docs)
    (hy : y ∈ coll.docs) : strictlyAfter ts d y = !docLE ts y d := by
  induction ts with
  | nil => rfl
  | cons t ts ih =>
    obtain ⟨ht, hts⟩ := forall_mem_cons.1 h
    have hbelow : ∀ x ∈ coll.docs, ∀ z ∈ coll.docs,
        below (docValue x t.field) (docValue z t.field) =
          decide (sortKey (docValue x t.field) < sortKey (docValue z t.field)) := by
      intro x hx z hz
      rw [Bool.eq_iff_iff, ht.below_iff hx hz, decide_eq_true_eq]
    simp only [strictlyAfter, docLE, ih hts, past, hbelow y hy d hd, hbelow d hd y hy,
      ht.eq_iff hy hd]
    rcases lt_trichotomy (sortKey (docValue y t.field)) (sortKey (docValue d t.field))
      with h | h | h
    · cases t.desc <;> simp [h, h.ne, h.not_gt]
    · simp [h]
    · cases t.desc <;> simp [h, h.ne', h.not_gt]

theorem leadsTo_eq {c : String → Value} {slots : List OrderByField}
    (hc : ∀ s ∈ slots, c s.field = docValue d s.field) {prior : List String}
    (hnodup : (prior ++ slots.map OrderByField.field).Nodup) :
    leadsTo c y prior slots =
      ((prior.all fun f => docValue y f = c f) && strictlyAfter slots d y) := by
  induction slots generalizing prior with
  | nil => simp [leadsTo, strictlyAfter]
  | cons s slots ih =>
    obtain ⟨hs, hslots⟩ := forall_mem_cons.1 hc
    have hfresh : ∀ f ∈ prior, f ≠ s.field := fun f hf heq =>
      (nodup_append.1 hnodup).2.2 f hf s.field mem_cons_self heq
    have hprior : (prior.all fun f => f = s.field || docValue y f = c f) =
        prior.all fun f => docValue y f = c f := by
      rw [Bool.eq_iff_iff, all_eq_true, all_eq_true]
      exact forall₂_congr fun f hf => by simp [hfresh f hf]
    have hnodup' : ((prior ++ [s.field]) ++ slots.map OrderByField.field).Nodup := by
      simpa using hnodup
    rw [leadsTo, ih hslots hnodup', hprior, hs, strictlyAfter, all_append]
    simp [hs, Bool.and_or_distrib_left, Bool.and_assoc]

theorem keysetSlots_prefix :
    ∃ rest, buildStableSortDoc sortFields false = keysetSlots sortFields ++ rest ∧
      ∃ t ∈ keysetSlots sortFields, t.field = "_id" := by
  have hmap : (sortFields.map fun s => OrderByField.mk s.field (s.desc != false)) = sortFields := by
    simp
  rw [buildStableSortDoc, hmap]
  rcases keysetSlots_cases sortFields with ⟨hslots, hne⟩ | ⟨pre, t, rest, hsplit, hid, hslots⟩
  · rw [hslots, if_neg (by simpa using hne)]
    exact ⟨[], by simp, ⟨"_id", false⟩, by simp, rfl⟩
  · rw [hslots, if_pos (by simp [hsplit, hid])]
    exact ⟨rest, by simp [hsplit], t, by simp, hid⟩

theorem nodup_keysetSlots (h : (sortFields.map OrderByField.field).Nodup) :
    ((keysetSlots sortFields).map OrderByField.field).Nodup := by
  rcases keysetSlots_cases sortFields with ⟨hslots, hne⟩ | ⟨pre, t, rest, rfl, -, hslots⟩
  · rw [hslots, map_append, nodup_append]
    exact ⟨h, nodup_singleton _, by simpa using hne⟩
  · rw [hslots]
    exact h.sublist (.map _ (by simp))

theorem uniform_id : Uniform coll "_id" := by
  refine ⟨⟨"_id", by decide⟩, .inl fun d hd => ?_⟩
  exact ⟨idText d, docValue_idText hd⟩

theorem uniform_keysetSlots (h : ∀ s ∈ sortFields, Uniform coll s.field) {t : OrderByField}
    (ht : t ∈ keysetSlots sortFields) : Uniform coll t.field := by
  rcases keysetSlots_cases sortFields with ⟨hslots, -⟩ | ⟨pre, u, rest, rfl, -, hslots⟩
  · rcases mem_append.1 (hslots ▸ ht) with ht | ht
    · exact h t ht
    · rw [mem_singleton.1 ht]
      exact uniform_id
  · refine h t ?_
    rw [append_cons]
    exact mem_append_left _ (hslots ▸ ht)

theorem docLE_append {rest : List OrderByField}
    (h : ∃ t ∈ ts, sortKey (docValue x t.field) ≠ sortKey (docValue y t.field)) :
    docLE (ts ++ rest) x y = docLE ts x y := by
  induction ts with
  | nil => obtain ⟨t, ht, -⟩ := h; cases ht
  | cons t ts ih =>
    simp only [cons_append, docLE]
    split_ifs with heq
    · refine ih ?_
      obtain ⟨t', ht', hne⟩ := h
      rcases mem_cons.1 ht' with rfl | ht'
      · exact absurd heq hne
      · exact ⟨t', ht', hne⟩
    · rfl
    · rfl

/-- **Uniform columns.**  Every walk returns the listing when the sort columns are distinct and
uniform. -/
theorem walk_complete_of_uniform {sortFields : List OrderByField}
    (hnodup : (sortFields.map OrderByField.field).Nodup)
    (huniform : ∀ s ∈ sortFields, Uniform coll s.field) {limit : ℕ} (hlimit : 0 < limit) :
    ∃ fuel, walk timeText coll.docs filter sortFields limit fuel none =
      some (listing (buildStableSortDoc sortFields false) (selected filter) coll.docs) := by
  refine walk_of_resumable ?_ filter hlimit
  obtain ⟨rest, hdoc, hid⟩ := keysetSlots_prefix
  have hslots : ∀ t ∈ keysetSlots sortFields, Uniform coll t.field := fun _ =>
    uniform_keysetSlots huniform
  have hresumes : ∀ d ∈ coll.docs, ∀ y ∈ coll.docs, resumes timeText sortFields d y =
      !docLE (keysetSlots sortFields) y d := by
    intro d hd y hy
    rw [resumes, leadsTo_eq (fun t ht => (hslots t ht).carried_eq hd)
        (by simpa using nodup_keysetSlots hnodup),
      strictlyAfter_eq hslots hd hy, all_nil, Bool.true_and]
  have hcut : ∀ x ∈ coll.docs, ∀ y ∈ coll.docs,
      docLE (buildStableSortDoc sortFields false) x y = docLE (keysetSlots sortFields) x y := by
    intro x hx y hy
    by_cases hxy : x = y
    · rw [hxy, or_self_iff.1 (docLE_total _ y y), or_self_iff.1 (docLE_total _ y y)]
    · obtain ⟨t, ht, hfield⟩ := hid
      rw [hdoc]
      refine docLE_append ⟨t, ht, fun hkey => hxy ?_⟩
      rw [hfield, ← uniform_id.eq_iff hx hy, docValue_idText hx, docValue_idText hy] at hkey
      exact inj_on_of_nodup_map coll.nodup hx hy (str.inj hkey)
  intro d hd y hy ⟨hle, hne⟩
  refine ⟨?_, fun w hw hwd => ?_⟩
  · rw [hresumes d hd y hy, Bool.not_eq_true', ← hcut y hy d hd]
    by_contra hyd
    exact hne (coll.eq_of_docLE hd hy hle (by simpa using hyd))
  · rw [hresumes d hd w hw, ← hcut w hw d hd, hwd]
    rfl

/-- Two people, one of whom has no name. -/
def people : Collection where
  docs := [[("_id", .str "p1"), ("name", .null)], [("_id", .str "p2"), ("name", .str "Ann")]]
  ids := by simp [AssocMap.get]
  nodup := by decide

theorem people_walked_by_id :
    ∃ fuel, walk (fun _ => "") people.docs [] [⟨"_id", true⟩] 1 fuel none =
      some people.docs.reverse :=
  walk_complete_of_uniform (by decide) (by simp [uniform_id]) Nat.one_pos

theorem walk_stops_at_null :
    walk (fun _ => "") people.docs [] [⟨"name", false⟩] 1 2 none =
        some [[("_id", .str "p1"), ("name", .null)]] ∧
      listing (buildStableSortDoc [⟨"name", false⟩] false) (selected []) people.docs =
        [[("_id", .str "p1"), ("name", .null)], [("_id", .str "p2"), ("name", .str "Ann")]] := by
  decide +kernel

end Omnicore.Queryschema
