import Omnicore.Lib.DocCut

/-!
# Archived content of a view document

A stored view document keeps the archived entries of its segments; a default read takes them out
again by the column that says an entry is archived.  When the store projects the document first,
that column may be gone by the time the strip looks for it.

## Main definitions

* `ViewNode` : the schema of a view document, segment by segment.
* `ViewNode.stripArchivedChildren` : a document without archived content.
* `ViewNode.plain` : a document without the segments that hold `null`.
* `ViewNode.KeepsArchivedAt` : a projection leaves every segment it goes inside its column.
* `ViewNode.childArchivedAtPaths` : the segments with an archived state.

## Main results

* `ViewNode.strip_cutFields` : a projection that leaves the columns commutes with the strip.
-/

namespace Omnicore.Queryschema

open DocPath List

/-- The schema of a view document or of one of its segments: the column that says it is archived,
if its source declares one, and the segments under it by their document field.  A role segment is
one document or `null`, and the strip treats it as it treats any other segment of that shape. -/
inductive ViewNode where
  | mk (archivedAt : Option String) (embeds : List (String × ViewNode))

namespace ViewNode

/-- The column that says an entry is archived. -/
def archivedAtColumn : ViewNode → Option String
  | mk a _ => a

/-- The segments by document field: child collections, role segments, embeds. -/
def embedsByDoc : ViewNode → AssocMap String ViewNode
  | mk _ es => es

/-- The node a path of segments leads to. -/
def nodeAt : ViewNode → Path → Option ViewNode
  | n, [] => some n
  | n, k :: s => (n.embedsByDoc.get k).bind (·.nodeAt s)

/-- An entry is archived when the column says so. -/
def archived (n : ViewNode) (e : List (String × Value)) : Bool :=
  match n.archivedAtColumn with
  | none => false
  | some a => e.any fun p => p.1 = a && p.2 ≠ .null

mutual

/-- A single entry that is archived becomes `null`; an array loses its archived entries. -/
def stripSegment (n : ViewNode) : Value → Value
  | .doc e => if n.archived e then .null else .doc (stripArchivedChildren n e)
  | .arr xs => .arr (stripElems n xs)
  | v => v

/-- An array without its archived entries. -/
def stripElems (n : ViewNode) : List Value → List Value
  | [] => []
  | .doc e :: xs =>
    if n.archived e then stripElems n xs
    else .doc (stripArchivedChildren n e) :: stripElems n xs
  | x :: xs => x :: stripElems n xs

/-- A document without the archived content of its segments. -/
def stripArchivedChildren (n : ViewNode) : List (String × Value) → List (String × Value)
  | [] => []
  | (k, v) :: fs =>
    (k, match n.embedsByDoc.get k with
      | none => v
      | some m => stripSegment m v) :: stripArchivedChildren n fs

end

/-- What the strip makes of one field. -/
def stripField (n : ViewNode) (k : String) (v : Value) : Value :=
  match n.embedsByDoc.get k with
  | none => v
  | some m => stripSegment m v

theorem strip_cons (n : ViewNode) (k : String) (v : Value) (fs : List (String × Value)) :
    n.stripArchivedChildren ((k, v) :: fs) =
      (k, n.stripField k v) :: n.stripArchivedChildren fs := by
  rfl

theorem strip_entry_append (n : ViewNode) (k : String) (o : Option Value)
    (fs : List (String × Value)) :
    n.stripArchivedChildren (o.toList.map (k, ·) ++ fs) =
      (o.map (n.stripField k)).toList.map (k, ·) ++ n.stripArchivedChildren fs := by
  cases o with
  | none => rfl
  | some v => exact n.strip_cons k v fs

mutual

/-- A segment without the segments inside it that hold `null`. -/
def plainValue (n : ViewNode) : Value → Value
  | .doc e => .doc (plain n e)
  | .arr xs => .arr (plainElems n xs)
  | v => v

/-- The entries of an array without the segments that hold `null`. -/
def plainElems (n : ViewNode) : List Value → List Value
  | [] => []
  | x :: xs => plainValue n x :: plainElems n xs

/-- A document without the segments that hold `null`.  A reference that leads nowhere is `null` in a
whole document and missing from one that an inclusion went inside; the columns are as they are. -/
def plain (n : ViewNode) : List (String × Value) → List (String × Value)
  | [] => []
  | (k, v) :: fs =>
    (match n.embedsByDoc.get k with
      | none => [(k, v)]
      | some m => if v = .null then [] else [(k, plainValue m v)]) ++ plain n fs

end

/-- What a segment adds to a plain document. -/
def plainSegment (m : ViewNode) (k : String) : Option Value → List (String × Value)
  | none => []
  | some v => if v = .null then [] else [(k, plainValue m v)]

/-- What a field adds to a plain document. -/
def plainField (n : ViewNode) (k : String) (o : Option Value) : List (String × Value) :=
  match n.embedsByDoc.get k with
  | none => o.toList.map (k, ·)
  | some m => plainSegment m k o

theorem plain_field_append (n : ViewNode) (k : String) (o : Option Value)
    (fs : List (String × Value)) :
    n.plain (o.toList.map (k, ·) ++ fs) = n.plainField k o ++ n.plain fs := by
  unfold plainField
  cases o with
  | none => cases n.embedsByDoc.get k <;> rfl
  | some v =>
    simp only [Option.toList_some, map_cons, map_nil, singleton_append, plain]
    cases n.embedsByDoc.get k <;> rfl

theorem plain_cons (n : ViewNode) (k : String) (v : Value) (fs : List (String × Value)) :
    n.plain ((k, v) :: fs) = n.plainField k (some v) ++ n.plain fs :=
  n.plain_field_append k (some v) fs

theorem plainField_cases (n : ViewNode) (k : String) (v : Value) :
    n.plainField k (some v) = [] ∨ ∃ w, n.plainField k (some v) = [(k, w)] := by
  unfold plainField
  cases n.embedsByDoc.get k with
  | none => exact .inr ⟨v, rfl⟩
  | some m =>
    by_cases hv : v = .null
    · exact .inl (if_pos hv)
    · exact .inr ⟨_, if_neg hv⟩

/-- A projection leaves an entry the column that says it is archived. -/
def KeepsOwn (n : ViewNode) (incl : Bool) (paths : List Path) : Prop :=
  ∀ a, n.archivedAtColumn = some a → ([a] ∈ paths ↔ incl = true)

/-- A projection leaves every segment it goes inside the column that says an entry is archived. -/
def KeepsArchivedAt (n : ViewNode) (incl : Bool) (paths : List Path) : Prop :=
  ∀ s m a, s ≠ [] → n.nodeAt s = some m → m.archivedAtColumn = some a → Narrowed paths s →
    (s ++ [a] ∈ paths ↔ incl = true)

section Step

variable {n m : ViewNode} {incl : Bool} {paths : List Path} {k : String}

section

variable (h : n.KeepsArchivedAt incl paths) (hnil : [] ∉ paths) (hm : n.embedsByDoc.get k = some m)
include h hnil hm

theorem KeepsArchivedAt.own (hin : Narrowed (under k paths) []) :
    m.KeepsOwn incl (under k paths) := by
  intro a ha
  have hat : n.nodeAt [k] = some m := by rw [nodeAt, hm]; rfl
  rw [mem_under]
  exact h [k] m a (cons_ne_nil _ _) hat ha ((narrowed_cons_iff hnil).2 hin)

theorem KeepsArchivedAt.under : m.KeepsArchivedAt incl (under k paths) := by
  intro s m' a hs hat ha hnar
  have hat' : n.nodeAt (k :: s) = some m' := by rw [nodeAt, hm]; exact hat
  rw [mem_under]
  exact h (k :: s) m' a (cons_ne_nil _ _) hat' ha ((narrowed_cons_iff hnil).2 hnar)

end

end Step

variable {incl : Bool} {e : List (String × Value)} {subs : List Path} {s : Path} {k : String}
  {m n : ViewNode}

/-- A field that a projection must keep holds something after it exactly when it did before. -/
theorem cutField_kept (hown : [] ∈ subs ↔ incl = true) (v : Value) :
    ∃ w, cutField incl subs v = some w ∧ (w = .null ↔ v = .null) := by
  cases incl with
  | true => exact ⟨v, cutField_whole (hown.2 rfl), Iff.rfl⟩
  | false =>
    have hn : [] ∉ subs := fun h => Bool.noConfusion (hown.1 h)
    rw [cutField_eq_cutValue hn (by simp)]
    cases v <;> simp [cutValue]

theorem archived_cutFields (h : n.KeepsOwn incl subs) :
    n.archived (cutFields incl subs e) = n.archived e := by
  unfold archived
  cases ha : n.archivedAtColumn with
  | none => rfl
  | some a =>
    have hown : [] ∈ under a subs ↔ incl = true := mem_under.trans (h a ha)
    induction e with
    | nil => rw [cutFields]
    | cons p e ih =>
      obtain ⟨k, v⟩ := p
      simp only at ih ⊢
      rw [cutFields_cons, any_append, any_cons, ih]
      by_cases hk : k = a
      · subst hk
        obtain ⟨w, hw, hnull⟩ := cutField_kept hown v
        simp [hw, hnull]
      · simp [hk]

mutual

variable {incl : Bool}

/-- A projection that leaves the tests their columns commutes with the strip of a segment. -/
theorem strip_cutSegment {m : ViewNode} {subs : List Path} (k : String)
    (hnil : [] ∉ subs) (hown : m.KeepsOwn incl subs) (hkeep : m.KeepsArchivedAt incl subs) :
    ∀ v, m.plainSegment k ((cutValue incl subs v).map m.stripSegment) =
      m.plainSegment k (cutValue incl subs (m.stripSegment v))
  | .doc e => by
    have ih := strip_cutFields hnil hkeep e
    simp only [cutValue, Option.map_some, stripSegment, archived_cutFields hown]
    split_ifs with ha
    · cases incl <;> rfl
    · simp [cutValue, plainSegment, plainValue, ih]
  | .arr xs => by
    have ih := strip_cutElems hnil hown hkeep xs
    simp [cutValue, stripSegment, plainSegment, plainValue, ih]
  | .null | .bool _ | .int _ | .str _ | .time _ => by
    cases incl <;> simp [cutValue, stripSegment]

/-- A projection that leaves the tests their columns commutes with the strip of an array. -/
theorem strip_cutElems {m : ViewNode} {subs : List Path} (hnil : [] ∉ subs)
    (hown : m.KeepsOwn incl subs) (hkeep : m.KeepsArchivedAt incl subs) :
    ∀ xs, m.plainElems (m.stripElems (cutElems incl subs xs)) =
      m.plainElems (cutElems incl subs (m.stripElems xs))
  | [] => by simp [cutElems, stripElems]
  | .doc e :: xs => by
    have ih := strip_cutElems hnil hown hkeep xs
    have ihe := strip_cutFields hnil hkeep e
    simp only [cutElems, stripElems, archived_cutFields hown]
    split_ifs with ha
    · exact ih
    · simp [cutElems, plainElems, plainValue, ih, ihe]
  | .null :: xs | .bool _ :: xs | .int _ :: xs | .str _ :: xs | .time _ :: xs | .arr _ :: xs => by
    have ih := strip_cutElems hnil hown hkeep xs
    cases incl <;> simp [cutElems, stripElems, plainElems, ih]

/-- **A projection that leaves the tests their columns commutes with the strip**, up to the segments
that hold `null`. -/
theorem strip_cutFields {n : ViewNode} {paths : List Path} (hnil : [] ∉ paths)
    (hkeep : n.KeepsArchivedAt incl paths) :
    ∀ fs, n.plain (n.stripArchivedChildren (cutFields incl paths fs)) =
      n.plain (cutFields incl paths (n.stripArchivedChildren fs))
  | [] => by simp [cutFields, stripArchivedChildren]
  | (k, v) :: fs => by
    have ih := strip_cutFields hnil hkeep fs
    rw [strip_cons, cutFields_cons, cutFields_cons, strip_entry_append, plain_field_append,
      plain_field_append, ih]
    congr 1
    unfold stripField plainField
    cases hm : n.embedsByDoc.get k with
    | none => simp
    | some m =>
      by_cases hs : under k paths = []
      · rw [hs, cutField_nil, cutField_nil]
        cases incl <;> rfl
      by_cases hn : [] ∈ under k paths
      · rw [cutField_whole hn, cutField_whole hn]
        cases incl <;> rfl
      · rw [cutField_inside hs hn, cutField_inside hs hn]
        have hin : Narrowed (under k paths) [] := narrowed_nil_iff.2 ⟨hs, hn⟩
        exact strip_cutSegment k hn (hkeep.own hnil hm hin) (hkeep.under hnil hm) v

end

/-! ### The paths of segments -/

theorem nodeAt_append (n : ViewNode) (s t : Path) :
    n.nodeAt (s ++ t) = (n.nodeAt s).bind (·.nodeAt t) := by
  induction s generalizing n with
  | nil => rfl
  | cons k s ih =>
    rw [cons_append, nodeAt, nodeAt]
    cases n.embedsByDoc.get k with
    | none => rfl
    | some m => exact ih m

theorem nodeAt_snoc (hs : n.nodeAt s = some m) (k : String) :
    n.nodeAt (s ++ [k]) = m.embedsByDoc.get k := by
  rw [nodeAt_append, hs]
  show (m.embedsByDoc.get k).bind _ = _
  cases m.embedsByDoc.get k <;> rfl

/-- What the boot checks of a view schema: the segments of a node have different document fields,
and the column that says an entry is archived is none of them. -/
def WellFormed (n : ViewNode) : Prop :=
  ∀ s m, n.nodeAt s = some m → m.embedsByDoc.keys.Nodup ∧
    ∀ a, m.archivedAtColumn = some a → m.embedsByDoc.get a = none

theorem WellFormed.sub (h : n.WellFormed) (hm : n.embedsByDoc.get k = some m) : m.WellFormed := by
  intro s m' hs
  refine h (k :: s) m' ?_
  rw [nodeAt, hm]
  exact hs

mutual

/-- The segments whose source declares an archived state, by their path, with the column. -/
def childArchivedAtPaths : ViewNode → List (Path × String)
  | mk _ es => embedArchivedAtPaths es

/-- The paths of some segments. -/
def embedArchivedAtPaths : List (String × ViewNode) → List (Path × String)
  | [] => []
  | (k, m) :: es =>
    m.archivedAtColumn.toList.map ([k], ·) ++
      (childArchivedAtPaths m).map (fun p => (k :: p.1, p.2)) ++ embedArchivedAtPaths es

end

theorem mem_embedArchivedAtPaths {es : List (String × ViewNode)} {a : String} :
    (s, a) ∈ embedArchivedAtPaths es ↔ ∃ k m, (k, m) ∈ es ∧
      ((s = [k] ∧ m.archivedAtColumn = some a) ∨
        ∃ t, s = k :: t ∧ (t, a) ∈ m.childArchivedAtPaths) := by
  induction es with
  | nil => simp [embedArchivedAtPaths]
  | cons p es ih =>
    obtain ⟨k, m⟩ := p
    rw [embedArchivedAtPaths, mem_append, mem_append, ih]
    constructor
    · rintro ((h | h) | ⟨j, m', hmem, h⟩)
      · obtain ⟨b, hb, he⟩ := mem_map.1 h
        cases he
        exact ⟨k, m, mem_cons_self, .inl ⟨rfl, Option.mem_toList.1 hb⟩⟩
      · obtain ⟨⟨t, b⟩, ht, he⟩ := mem_map.1 h
        cases he
        exact ⟨k, m, mem_cons_self, .inr ⟨t, rfl, ht⟩⟩
      · exact ⟨j, m', mem_cons_of_mem _ hmem, h⟩
    · rintro ⟨j, m', hmem, h⟩
      rcases mem_cons.1 hmem with he | hmem
      · cases he
        rcases h with ⟨rfl, ha⟩ | ⟨t, rfl, ht⟩
        · exact .inl (.inl (mem_map.2 ⟨a, Option.mem_toList.2 ha, rfl⟩))
        · exact .inl (.inr (mem_map.2 ⟨(t, a), ht, rfl⟩))
      · exact .inr ⟨j, m', hmem, h⟩

theorem mem_childArchivedAtPaths (h : n.WellFormed) {a : String} :
    (s, a) ∈ n.childArchivedAtPaths ↔
      s ≠ [] ∧ ∃ m, n.nodeAt s = some m ∧ m.archivedAtColumn = some a := by
  induction s generalizing n with
  | nil =>
    obtain ⟨b, es⟩ := n
    simp [childArchivedAtPaths, mem_embedArchivedAtPaths]
  | cons k s ih =>
    have hlisted : (k :: s, a) ∈ n.childArchivedAtPaths ↔ ∃ m, n.embedsByDoc.get k = some m ∧
          ((s = [] ∧ m.archivedAtColumn = some a) ∨ (s, a) ∈ m.childArchivedAtPaths) := by
      have hkeys : n.embedsByDoc.keys.Nodup := (h [] n rfl).1
      obtain ⟨b, es⟩ := n
      rw [childArchivedAtPaths, mem_embedArchivedAtPaths]
      constructor
      · rintro ⟨j, m, hmem, hor⟩
        have hget := AssocMap.get_of_mem hkeys hmem
        rcases hor with ⟨he, ha⟩ | ⟨t, he, ht⟩
        · cases he
          exact ⟨m, hget, .inl ⟨rfl, ha⟩⟩
        · cases he
          exact ⟨m, hget, .inr ht⟩
      · rintro ⟨m, hget, hor⟩
        refine ⟨k, m, AssocMap.mem_of_get hget, ?_⟩
        rcases hor with ⟨rfl, ha⟩ | ht
        · exact .inl ⟨rfl, ha⟩
        · exact .inr ⟨s, rfl, ht⟩
    rw [hlisted]
    constructor
    · rintro ⟨m, hget, ⟨rfl, ha⟩ | ht⟩
      · exact ⟨cons_ne_nil _ _, m, by rw [nodeAt, hget]; rfl, ha⟩
      · obtain ⟨-, m', hat, ha⟩ := (ih (h.sub hget)).1 ht
        exact ⟨cons_ne_nil _ _, m', by rw [nodeAt, hget]; exact hat, ha⟩
    · rintro ⟨-, m', hat, ha⟩
      obtain ⟨m, hget, hat⟩ := Option.bind_eq_some_iff.1 hat
      refine ⟨m, hget, ?_⟩
      by_cases hs : s = []
      · subst hs
        cases hat
        exact .inl ⟨rfl, ha⟩
      · exact .inr ((ih (h.sub hget)).2 ⟨hs, m', hat, ha⟩)

end ViewNode

end Omnicore.Queryschema
