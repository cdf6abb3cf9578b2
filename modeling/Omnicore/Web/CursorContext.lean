import Mathlib.Data.Finset.Sort
import Mathlib.Data.String.Basic
import Omnicore.Web.QueryCriteria

/-!
# The listing a cursor belongs to

A connection field hands its `where` argument over as maps, iterated in any order.  Its terms
accumulate per field path, and a cursor carries the hash of the criteria it was issued under.

## Main results

* `cursorFits_iff` : a cursor fits its listing in every order of iteration if no two terms put
  distinct clauses under one path, and only then.
-/

namespace Omnicore.Queryschema

open AssocMap Except Function
open List hiding get

/-! ### Decoding -/

/-- The `where` argument: the operands of each field, none where it is no object. -/
abbrev Where := List (String × List (Operator × Value))

/-- Another order of iteration over the fields and over the operators of each. -/
def Iterates (w w' : Where) : Prop :=
  ∃ ops : String × List (Operator × Value) → List (Operator × Value),
    (∀ f ∈ w, f.2.Perm (ops f)) ∧ (w.map fun f => (f.1, ops f)).Perm w'

variable (sprint : Value → String) (whereLeaf : AssocMap String String)

/-- An operand as texts; a list operator takes the elements of an array. -/
def operandValues (op : Operator) : Value → List String
  | .arr xs => if operatorTakesList op then xs.map sprint else [sprint (.arr xs)]
  | v => [sprint v]

/-- The terms of one field. -/
def fieldTerms (f : String × List (Operator × Value)) : List FilterTerm :=
  f.2.map fun o => ⟨(whereLeaf.get f.1).getD "", o.1, operandValues sprint o.1 o.2, f.1⟩

/-- The terms of a `where` argument; the first field without a leaf is refused. -/
def decodeArgs (w : Where) : Except String (List FilterTerm) :=
  if ∀ f ∈ w, (whereLeaf.get f.1).isSome then .ok (w.flatMap (fieldTerms sprint whereLeaf))
  else
    let unknown := w.find? fun f => (whereLeaf.get f.1).isNone
    .error ("where: unknown filter field \"" ++ unknown.elim "" Prod.fst ++ "\"")

variable {sprint whereLeaf} {w w' : Where} {t : FilterTerm} {ts ts' : List FilterTerm}

theorem decodeArgs_ok : decodeArgs sprint whereLeaf w = .ok ts ↔
    (∀ f ∈ w, (whereLeaf.get f.1).isSome) ∧ w.flatMap (fieldTerms sprint whereLeaf) = ts := by
  rw [decodeArgs]
  split_ifs with h
  · exact ⟨fun hts => ⟨h, Except.ok.inj hts⟩, fun hts => congrArg _ hts.2⟩
  · exact ⟨nofun, fun hts => absurd hts.1 h⟩

theorem Iterates.decodeArgs (h : Iterates w w') (hts : decodeArgs sprint whereLeaf w = .ok ts) :
    ∃ ts', decodeArgs sprint whereLeaf w' = .ok ts' ∧ ts.Perm ts' := by
  obtain ⟨ops, hops, hperm⟩ := h
  obtain ⟨hknown, rfl⟩ := decodeArgs_ok.1 hts
  refine ⟨_, decodeArgs_ok.2 ⟨fun f hf => ?_, rfl⟩, ?_⟩
  · obtain ⟨g, hg, rfl⟩ := mem_map.1 (hperm.mem_iff.2 hf)
    exact hknown g hg
  · refine .trans ?_ (hperm.flatMap_right _)
    rw [flatMap_map]
    exact .flatMap_left _ fun f hf => (hops f hf).map _

theorem exists_iterates_first (hts : decodeArgs sprint whereLeaf w = .ok ts) (ht : t ∈ ts) :
    ∃ w' l, Iterates w w' ∧ decodeArgs sprint whereLeaf w' = .ok (t :: l) := by
  classical
  obtain ⟨-, rfl⟩ := decodeArgs_ok.1 hts
  obtain ⟨f, hf, ht⟩ := mem_flatMap.1 ht
  obtain ⟨o, ho, rfl⟩ := mem_map.1 ht
  obtain ⟨a, b, rfl⟩ := append_of_mem hf
  obtain ⟨c, d, hcd⟩ := append_of_mem ho
  have hit : Iterates (a ++ f :: b) ((f.1, o :: (c ++ d)) :: _) :=
      ⟨update Prod.snd f (o :: (c ++ d)), fun g _ => by
    by_cases hg : g = f
    · rw [hg, update_self, hcd]
      exact perm_middle
    · rw [update_of_ne hg], by
    rw [map_append, map_cons, update_self]
    exact perm_middle⟩
  obtain ⟨ts', hts', -⟩ := Iterates.decodeArgs hit hts
  obtain ⟨-, rfl⟩ := decodeArgs_ok.1 hts'
  exact ⟨_, _, hit, hts'⟩

/-! ### The hash of a listing -/

/-- The entries of a filter by sorted path. -/
def canonicalizeFilterMap (m : Filter) : List (String × FilterEntry) :=
  (m.keys.toFinset.sort (· ≤ ·)).filterMap fun k => (m.get k).map (k, ·)

/-- The hash of a listing context by the digest `sum`; the empty context has none. -/
def hashContext {D : Type} (sum : List (String × FilterEntry) × List (String × Bool) × String ×
    Bool → D) (filter : Filter) (orderBy : List (String × Bool)) (search : String)
    (includeArchived : Bool) : Option D :=
  if filter = [] ∧ orderBy = [] ∧ search = "" ∧ includeArchived = false then none
  else sum (canonicalizeFilterMap filter, orderBy, search, includeArchived)

theorem canonicalizeFilterMap_eq_iff {m m' : Filter} :
    canonicalizeFilterMap m = canonicalizeFilterMap m' ↔ get m = get m' := by
  have hget (m : Filter) : get (canonicalizeFilterMap m) = get m := by
    funext k
    rw [canonicalizeFilterMap, get_filterMap_ofKeys]
    simp only [Finset.mem_sort, mem_toFinset, ite_eq_left_iff, ← get_eq_none_iff]
    exact Eq.symm
  refine ⟨fun h => by rw [← hget, h, hget], fun h => ?_⟩
  have hkeys : m.keys.toFinset = m'.keys.toFinset := by
    ext k
    rw [mem_toFinset, mem_toFinset, ← not_iff_not, ← get_eq_none_iff, ← get_eq_none_iff, h]
  rw [canonicalizeFilterMap, canonicalizeFilterMap, hkeys, h]

section

variable {D : Type} {sum : List (String × FilterEntry) × List (String × Bool) × String × Bool → D}
  {filter filter' : Filter} {orderBy : List (String × Bool)} {search : String} {arch : Bool}

theorem get_eq_of_hashContext (hsum : Injective sum)
    (h : hashContext sum filter orderBy search arch = hashContext sum filter' orderBy search arch) :
    get filter = get filter' := by
  simp only [hashContext] at h
  split_ifs at h with h1 h2 h2
  · rw [h1.1, h2.1]
  · exact canonicalizeFilterMap_eq_iff.1 (congrArg Prod.fst (hsum (Option.some.inj h)))

theorem hashContext_congr (h : get filter = get filter') :
    hashContext sum filter orderBy search arch = hashContext sum filter' orderBy search arch := by
  have hnil : filter = [] ↔ filter' = [] := by rw [eq_nil_iff_get, eq_nil_iff_get, h]
  simp [hashContext, hnil, canonicalizeFilterMap_eq_iff.2 h]

end

/-! ### The clauses of a filter -/

variable (env : WireEnv) (s : RequestSchema)

/-- The path and the clause of a term with an operand. -/
def FilterTerm.clause (t : FilterTerm) : Option (String × FilterClause) :=
  match s.filters.get t.path, t.values with
  | some spec, value :: _ =>
    (filterClause env spec.leaf t.raw t.op value t.values).toOption.map (spec.docPath, ·)
  | _, _ => none

/-- The clauses under a path. -/
def clausesAt (path : String) (l : List (String × FilterClause)) : List FilterClause :=
  (l.filter (·.1 = path)).map (·.2)

/-- The entry some clauses accumulate to. -/
def entryOf : List FilterClause → Option FilterEntry
  | [] => none
  | [c] => some (.single c)
  | cs => some (.multiClause cs)

theorem entryOf_injective : Function.Injective entryOf := by
  rintro (_ | ⟨a, _ | ⟨b, l⟩⟩) (_ | ⟨a', _ | ⟨b', l'⟩⟩) <;> simp [entryOf]

variable {env s} {f f' g : Filter} {l : List (String × FilterClause)}

theorem get_mergeClause
    (hg : ∀ q, get g q = entryOf (clausesAt q l)) (p : String × FilterClause) (q : String) :
    get (mergeClause g p.1 p.2) q = entryOf (clausesAt q (l ++ [p])) := by
  by_cases hq : p.1 = q
  · subst hq
    have happ : clausesAt p.1 (l ++ [p]) = clausesAt p.1 l ++ [p.2] := by simp [clausesAt]
    rw [mergeClause, hg, happ]
    rcases clausesAt p.1 l with _ | ⟨a, _ | ⟨b, l⟩⟩ <;> simp [entryOf]
  · have hsame : clausesAt q (l ++ [p]) = clausesAt q l := by simp [clausesAt, hq]
    rw [hsame, ← hg, mergeClause]
    split <;> exact get_set_ne _ _ hq

theorem applyTerm_get (h : applyTerm env s f t = .ok f')
    (hg : ∀ q, get g q = entryOf (clausesAt q l)) :
    ∃ g', applyTerm env s g t = .ok g' ∧
      ∀ q, get g' q = entryOf (clausesAt q (l ++ (t.clause env s).toList)) := by
  simp only [applyTerm, FilterTerm.clause] at h ⊢
  cases hspec : s.filters.get t.path with
  | none => simp [hspec] at h
  | some spec =>
    simp only [hspec] at h ⊢
    split_ifs at h with hop
    rw [if_pos hop]
    cases hv : t.values with
    | nil => exact ⟨g, rfl, by simpa using hg⟩
    | cons value values =>
      rw [hv] at h
      obtain ⟨c, hc, -⟩ := bind_ok.1 h
      exact ⟨_, by rw [applyFilterValues, hc]; rfl, by
        simpa [hc, Except.toOption] using get_mergeClause hg (spec.docPath, c)⟩

/-- **Accepted terms** accumulate in their order, by induction on them. -/
theorem foldlM_applyTerm_get (h : ∀ t ∈ ts, ∃ f f', applyTerm env s f t = .ok f')
    (hg : ∀ q, get g q = entryOf (clausesAt q l)) :
    ∃ g', ts.foldlM (applyTerm env s) g = .ok g' ∧
      ∀ q, get g' q = entryOf (clausesAt q (l ++ ts.filterMap (·.clause env s))) := by
  induction ts generalizing g l with
  | nil => exact ⟨g, rfl, by simpa using hg⟩
  | cons t ts ih =>
    obtain ⟨f, f', ht⟩ := h t mem_cons_self
    obtain ⟨g1, hg1, hget⟩ := applyTerm_get ht hg
    obtain ⟨g', hg', hget'⟩ := ih (fun t ht => h t (mem_cons_of_mem _ ht)) hget
    refine ⟨g', by rw [foldlM_cons, hg1]; exact hg', fun q => ?_⟩
    rw [hget', filterMap_cons, append_assoc]
    cases t.clause env s <;> rfl

/-! ### Cursors -/

variable {proj : Option ProjectionSchema} {r : Read} {p : ReadCriteria × List String}

theorem buildCriteria_get (h : buildCriteria env s proj r = .ok p) (q : String) :
    get p.1.filter q = entryOf (clausesAt q (r.filters.filterMap (·.clause env s))) := by
  have hfold := (buildCriteria_ok h).1
  obtain ⟨g, hg, hget⟩ := foldlM_applyTerm_get (g := []) (l := [])
    (fun t ht => exists_applyTerm_of_foldlM hfold ht) fun _ => rfl
  rw [ok.inj (hfold.symm.trans hg), hget, nil_append]

theorem buildCriteria_of_perm (h : buildCriteria env s proj { r with filters := ts } = .ok p)
    (hperm : ts.Perm ts') : ∃ p', buildCriteria env s proj { r with filters := ts' } = .ok p' := by
  obtain ⟨f, hf, h⟩ := bind_ok.1 h
  obtain ⟨g, hg, -⟩ := foldlM_applyTerm_get (g := []) (l := [])
    (fun t ht => exists_applyTerm_of_foldlM hf (hperm.mem_iff.2 ht)) fun _ => rfl
  obtain ⟨orderBy, ho, h⟩ := bind_ok.1 h
  obtain ⟨projection, hp, h⟩ := bind_ok.1 h
  obtain ⟨_, hc, h⟩ := bind_ok.1 h
  obtain ⟨_, ha, h⟩ := bind_ok.1 h
  obtain ⟨_, hb, -⟩ := bind_ok.1 h
  exact ⟨_, bind_ok.2 ⟨g, hg, bind_ok.2 ⟨_, ho, bind_ok.2 ⟨_, hp, bind_ok.2 ⟨_, hc, bind_ok.2
    ⟨_, ha, bind_ok.2 ⟨_, hb, rfl⟩⟩⟩⟩⟩⟩⟩

variable {D : Type} (sum : List (String × FilterEntry) × List (String × Bool) × String × Bool → D)

/-- The hash of the listing of some criteria. -/
def ReadCriteria.contextHash (c : ReadCriteria) : Option D :=
  hashContext sum c.filter c.orderBy c.search c.includeArchived

variable (sprint whereLeaf env s) in
/-- A follow-up that differs in its cursors has the hash of the request that issued them. -/
def CursorFits (proj : Option ProjectionSchema) (w : Where) (r : Read) : Prop :=
  ∀ w₁ w₂ ts₁ ts₂ controls after before p₁ p₂, Iterates w w₁ → Iterates w w₂ →
    decodeArgs sprint whereLeaf w₁ = .ok ts₁ → decodeArgs sprint whereLeaf w₂ = .ok ts₂ →
    buildCriteria env s proj { r with filters := ts₁ } = .ok p₁ →
    buildCriteria env s proj { r with filters := ts₂, controls, after, before } = .ok p₂ →
    p₁.1.contextHash sum = p₂.1.contextHash sum

variable (env s) in
/-- No two terms put distinct clauses under one path. -/
def OneClause (ts : List FilterTerm) : Prop :=
  ∀ p ∈ ts.filterMap (·.clause env s), ∀ p' ∈ ts.filterMap (·.clause env s), p.1 = p'.1 → p = p'

variable {sum}

/-- The digest is read off by the one direction only. -/
theorem contextHash_eq {controls : Controls} {after before : String}
    {p1 p2 : ReadCriteria × List String}
    (h1 : buildCriteria env s proj { r with filters := ts } = .ok p1)
    (h2 : buildCriteria env s proj { r with filters := ts', controls, after, before } = .ok p2) :
    let same := ∀ q, clausesAt q (ts.filterMap (·.clause env s)) =
      clausesAt q (ts'.filterMap (·.clause env s))
    (same → p1.1.contextHash sum = p2.1.contextHash sum) ∧
      (Injective sum → p1.1.contextHash sum = p2.1.contextHash sum → same) := by
  obtain ⟨-, ho1, hs1, ha1⟩ := buildCriteria_ok h1
  obtain ⟨-, ho2, hs2, ha2⟩ := buildCriteria_ok h2
  have hsame : (∀ q, clausesAt q (ts.filterMap (·.clause env s)) =
      clausesAt q (ts'.filterMap (·.clause env s))) ↔ get p1.1.filter = get p2.1.filter := by
    simp [funext_iff, buildCriteria_get h1, buildCriteria_get h2, entryOf_injective.eq_iff]
  simp only [hsame, ReadCriteria.contextHash, ok.inj (ho1.symm.trans ho2), hs1, hs2, ha1, ha2]
  exact ⟨hashContext_congr, get_eq_of_hashContext⟩

theorem OneClause.clausesAt_eq (h : OneClause env s ts) (hperm : ts.Perm ts') (q : String) :
    clausesAt q (ts.filterMap (·.clause env s)) = clausesAt q (ts'.filterMap (·.clause env s)) := by
  have hmem {c : FilterClause} {ts : List FilterTerm}
      (hc : c ∈ clausesAt q (ts.filterMap (·.clause env s))) :
      (q, c) ∈ ts.filterMap (·.clause env s) := by
    obtain ⟨p, hp, rfl⟩ := mem_map.1 hc
    obtain ⟨hp, hq⟩ := mem_filter.1 hp
    rwa [← of_decide_eq_true hq]
  refine (((hperm.filterMap _).filter _).map _).eq_of_pairwise (fun c c' hc hc' _ _ => ?_)
    (pairwise_of_forall fun _ _ => trivial) (pairwise_of_forall fun _ _ => trivial)
  exact congrArg Prod.snd (h _ (hmem hc) _ ((hperm.filterMap _).mem_iff.2 (hmem hc')) rfl)

/-- **A cursor fits its listing** in every order of iteration if no two terms of the request put
distinct clauses under one path, and only then by a digest without collisions. -/
theorem cursorFits_iff (hts : decodeArgs sprint whereLeaf w = .ok ts)
    (h : buildCriteria env s proj { r with filters := ts } = .ok p) :
    (OneClause env s ts → CursorFits sprint whereLeaf env s sum proj w r) ∧
      (Injective sum → CursorFits sprint whereLeaf env s sum proj w r → OneClause env s ts) := by
  constructor
  · intro hone w1 w2 ts1 ts2 controls after before p1 p2 hw1 hw2 hts1 hts2 h1 h2
    refine (contextHash_eq h1 h2).1 fun q => ?_
    obtain ⟨_, heq1, hperm1⟩ := hw1.decodeArgs hts
    obtain ⟨_, heq2, hperm2⟩ := hw2.decodeArgs hts
    cases heq1.symm.trans hts1
    cases heq2.symm.trans hts2
    exact (hone.clausesAt_eq hperm1 q).symm.trans (hone.clausesAt_eq hperm2 q)
  · intro hsum hfit p hp p' hp' hpath
    obtain ⟨t, ht, htp⟩ := mem_filterMap.1 hp
    obtain ⟨t', ht', htp'⟩ := mem_filterMap.1 hp'
    -- one order starts with the one term, another with the other
    obtain ⟨w1, l, hw1, hts1⟩ := exists_iterates_first hts ht
    obtain ⟨w2, l', hw2, hts2⟩ := exists_iterates_first hts ht'
    have haccept {w' ts'} (hw : Iterates w w') (hts' : decodeArgs sprint whereLeaf w' = .ok ts') :
        ∃ p', buildCriteria env s proj { r with filters := ts' } = .ok p' := by
      obtain ⟨_, heq, hperm⟩ := hw.decodeArgs hts
      exact buildCriteria_of_perm h (ok.inj (heq.symm.trans hts') ▸ hperm)
    obtain ⟨p1, h1⟩ := haccept hw1 hts1
    obtain ⟨p2, h2⟩ := haccept hw2 hts2
    have hq := (contextHash_eq h1 h2).2 hsum
      (hfit _ _ _ _ _ _ _ _ _ hw1 hw2 hts1 hts2 h1 h2) p.1
    simp only [filterMap_cons, htp, htp', clausesAt, filter_cons, decide_true, hpath] at hq
    exact Prod.ext hpath (by simpa using congrArg head? hq)

/-- Texts are rendered as they are. -/
def renderText : Value → String
  | .str s => s
  | _ => ""

/-- A listing by two operators, of which one has no operand, has one clause. -/
theorem cursorFits_code_in :
    ∃ ts p, decodeArgs renderText [("code", "code")]
        [("code", [(.opIn, .arr [.str "a"]), (.opNin, .arr [])])] = .ok ts ∧
      buildCriteria plainWire codeSchema none { filters := ts } = .ok p ∧
      CursorFits renderText [("code", "code")] plainWire codeSchema id none
        [("code", [(.opIn, .arr [.str "a"]), (.opNin, .arr [])])] {} :=
  ⟨_, _, rfl, rfl, (cursorFits_iff (r := {}) rfl rfl).1 (by unfold OneClause; decide)⟩

/-- A follow-up that reads the two operators on one field in the other order is refused. -/
theorem cursor_refused_in_other_order :
    ¬ CursorFits renderText [("code", "code")] { plainWire with decodeCursor := fun _ => some 1 }
      { codeSchema with reserved := ["after"] } id none
      [("code", [(.opIn, .arr [.str "a"]), (.opNin, .arr [.str "b"])])] {} := by
  intro h
  have hhash := h [("code", [(.opIn, .arr [.str "a"]), (.opNin, .arr [.str "b"])])]
    [("code", [(.opNin, .arr [.str "b"]), (.opIn, .arr [.str "a"])])] _ _ { after := true } "c" ""
    _ _ ⟨Prod.snd, fun _ _ => .refl _, .refl _⟩
    ⟨fun f => f.2.reverse, fun _ _ => (reverse_perm _).symm, .refl _⟩ rfl rfl rfl rfl
  exact absurd (congrFun (get_eq_of_hashContext injective_id hhash) "Code") (by decide)

end Omnicore.Queryschema
