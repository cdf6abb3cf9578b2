import Mathlib.Data.List.Basic

/-!
# Association maps

A finite map as a list of key/value pairs.  A lookup finds the first pair of a key, an assignment
overwrites in place or appends, so a map keeps the order in which its keys were first assigned:
what a document store does with the fields of a document, and a deterministic stand-in for a hash
map whose order carries no meaning.

All facts are about `get`; two maps that agree on `get` are interchangeable for every reader.
-/

/-- A finite map as an association list. -/
abbrev AssocMap (κ ν : Type*) := List (κ × ν)

namespace AssocMap

open List

variable {κ ν : Type*} [DecidableEq κ]

/-- The value of a key. -/
def get : AssocMap κ ν → κ → Option ν
  | [], _ => none
  | (k', v) :: m, k => if k' = k then some v else get m k

/-- Assign a key: overwrite its first pair, or append a new one. -/
def set : AssocMap κ ν → κ → ν → AssocMap κ ν
  | [], k, v => [(k, v)]
  | (k', v') :: m, k, v => if k' = k then (k', v) :: m else (k', v') :: set m k v

/-- Drop a key. -/
def erase (m : AssocMap κ ν) (k : κ) : AssocMap κ ν := m.filter fun p => p.1 ≠ k

/-- Assign or drop a key, according to the presence of a value. -/
def put (m : AssocMap κ ν) (k : κ) : Option ν → AssocMap κ ν
  | some v => set m k v
  | none => erase m k

/-- Assign every pair of `m'`, in order. -/
def setAll (m m' : AssocMap κ ν) : AssocMap κ ν := m'.foldl (fun acc p => set acc p.1 p.2) m

/-- The keys of a map. -/
def keys (m : AssocMap κ ν) : List κ := m.map Prod.fst

omit [DecidableEq κ] in
@[simp] theorem keys_nil : keys ([] : AssocMap κ ν) = [] := rfl

omit [DecidableEq κ] in
@[simp] theorem keys_cons (p : κ × ν) (m : AssocMap κ ν) : keys (p :: m) = p.1 :: keys m := rfl

omit [DecidableEq κ] in
@[simp] theorem keys_append (m m' : AssocMap κ ν) : keys (m ++ m') = keys m ++ keys m' := map_append

@[simp] theorem get_nil (k : κ) : get ([] : AssocMap κ ν) k = none := rfl

theorem get_cons (p : κ × ν) (m : AssocMap κ ν) (k : κ) :
    get (p :: m) k = if p.1 = k then some p.2 else get m k := rfl

theorem get_set (m : AssocMap κ ν) (k j : κ) (v : ν) :
    get (set m k v) j = if k = j then some v else get m j := by
  induction m with
  | nil => simp [set, get]
  | cons p m ih =>
    obtain ⟨k', v'⟩ := p
    by_cases hk : k' = k
    · subst hk
      simp only [set, ↓reduceIte, get_cons]
      split_ifs <;> rfl
    · simp only [set, hk, ↓reduceIte, get_cons, ih]
      by_cases hj : k' = j
      · subst hj; simp [Ne.symm hk]
      · simp [hj]

@[simp] theorem get_set_self (m : AssocMap κ ν) (k : κ) (v : ν) : get (set m k v) k = some v := by
  simp [get_set]

variable {m m' : AssocMap κ ν} {k : κ} {v : ν}

theorem get_set_ne (m : AssocMap κ ν) {j : κ} (v : ν) (h : k ≠ j) :
    get (set m k v) j = get m j := by
  simp [get_set, h]

theorem set_set (w : ν) : set (set m k v) k w = set m k w := by
  induction m with
  | nil => simp [set]
  | cons p m ih =>
    obtain ⟨k', v'⟩ := p
    by_cases hk : k' = k
    · simp [set, hk]
    · simp [set, hk, ih]

/-- Setting a field to what it holds changes nothing. -/
theorem set_eq_self (h : get m k = some v) : set m k v = m := by
  induction m with
  | nil => cases h
  | cons p m ih =>
    rw [get_cons] at h
    rw [set]
    split_ifs at h ⊢ with hp
    · cases h
      rfl
    · rw [ih h]

theorem mem_set {p : κ × ν} (h : p ∈ set m k v) : p ∈ m ∨ p = (k, v) := by
  induction m with
  | nil => exact .inr (mem_singleton.1 h)
  | cons q m ih =>
    rw [set] at h
    split_ifs at h with hk
    · rcases mem_cons.1 h with h | h
      · exact .inr (hk ▸ h)
      · exact .inl (mem_cons_of_mem _ h)
    · rcases mem_cons.1 h with h | h
      · exact .inl (h ▸ mem_cons_self)
      · exact (ih h).imp_left (mem_cons_of_mem _)

theorem mem_keys_set {j : κ} : j ∈ keys (set m k v) ↔ j ∈ keys m ∨ j = k := by
  induction m with
  | nil => simp [set, keys]
  | cons q m ih =>
    rw [set]
    split_ifs with hk
    · subst hk
      simp only [keys_cons, mem_cons]
      tauto
    · simp only [keys_cons, mem_cons, ih]
      tauto

theorem keys_set_nodup (h : (keys m).Nodup) : (keys (set m k v)).Nodup := by
  induction m with
  | nil => simp [set, keys]
  | cons q m ih =>
    rw [keys_cons, nodup_cons] at h
    rw [set]
    split_ifs with hk
    · exact nodup_cons.2 h
    · refine nodup_cons.2 ⟨fun hmem => ?_, ih h.2⟩
      exact (mem_keys_set.1 hmem).elim h.1 hk

theorem get_filter_key (m : AssocMap κ ν) (f : κ → Bool) (k : κ) :
    get (m.filter fun p => f p.1) k = if f k then get m k else none := by
  induction m with
  | nil => simp
  | cons p m ih =>
    by_cases hp : f p.1 = true
    · rw [filter_cons_of_pos (by simpa using hp), get_cons, get_cons, ih]
      by_cases hpk : p.1 = k
      · simp [← hpk, hp]
      · simp [hpk]
    · rw [filter_cons_of_neg (by simpa using hp), ih, get_cons]
      by_cases hpk : p.1 = k
      · simp [← hpk, hp]
      · simp [hpk]

theorem get_erase (m : AssocMap κ ν) (k j : κ) :
    get (erase m k) j = if k = j then none else get m j := by
  refine (get_filter_key m (fun j => decide (j ≠ k)) j).trans ?_
  by_cases hk : k = j
  · simp [hk]
  · simp [hk, Ne.symm hk]

theorem get_put (m : AssocMap κ ν) (k j : κ) (v : Option ν) :
    get (put m k v) j = if k = j then v else get m j := by
  cases v with
  | none => exact get_erase m k j
  | some v => exact get_set m k j v

theorem get_eq_none_iff (m : AssocMap κ ν) (k : κ) : get m k = none ↔ k ∉ keys m := by
  induction m with
  | nil => simp
  | cons p m ih =>
    rw [get_cons, keys_cons, mem_cons, not_or, ← ih]
    by_cases h : p.1 = k
    · simp [h]
    · simp [h, Ne.symm h]

theorem eq_nil_iff_get : m = [] ↔ ∀ k, get m k = none := by
  cases m with
  | nil => simp
  | cons p m =>
    simp only [reduceCtorEq, false_iff, not_forall]
    exact ⟨p.1, by simp [get_cons]⟩

theorem mem_of_get (h : get m k = some v) : (k, v) ∈ m := by
  induction m with
  | nil => cases h
  | cons p m ih =>
    rw [get_cons] at h
    split_ifs at h with hp
    · cases h
      exact hp ▸ mem_cons_self
    · exact mem_cons_of_mem _ (ih h)

theorem get_of_mem (h : (keys m).Nodup) {p : κ × ν} (hp : p ∈ m) : get m p.1 = some p.2 := by
  induction m with
  | nil => cases hp
  | cons q m ih =>
    rw [keys_cons, nodup_cons] at h
    rw [get_cons]
    rcases mem_cons.1 hp with rfl | hp
    · rw [if_pos rfl]
    · have hne : q.1 ≠ p.1 := fun he => h.1 (he ▸ mem_map_of_mem hp)
      rw [if_neg hne, ih h.2 hp]

/-- What holds of every entry of a map with distinct keys. -/
theorem all_iff_get (h : (keys m).Nodup) {P : κ × ν → Bool} :
    m.all P = true ↔ ∀ k v, get m k = some v → P (k, v) = true := by
  rw [all_eq_true]
  exact ⟨fun hall k v hk => hall (k, v) (mem_of_get hk),
    fun hall p hp => hall p.1 p.2 (get_of_mem h hp)⟩

theorem get_append : get (m ++ m') k = (get m k).or (get m' k) := by
  induction m with
  | nil => rfl
  | cons p m ih =>
    rw [cons_append, get_cons, get_cons, ih]
    split_ifs <;> rfl

/-- A lookup in a map whose values are rewritten. -/
theorem get_map {ω : Type*} (m : AssocMap κ ν) (f : κ → ν → ω) (k : κ) :
    get (m.map fun p => (p.1, f p.1 p.2)) k = (get m k).map (f k) := by
  induction m with
  | nil => rfl
  | cons p m ih =>
    rw [map_cons, get_cons, get_cons, ih]
    split_ifs with h
    · subst h; rfl
    · rfl

/-- A lookup in a map built from its keys. -/
theorem get_ofKeys (ks : List κ) (f : κ → ν) (k : κ) :
    get (ks.map fun j => (j, f j)) k = if k ∈ ks then some (f k) else none := by
  induction ks with
  | nil => rfl
  | cons j ks ih =>
    rw [map_cons, get_cons, ih]
    by_cases h : j = k
    · subst h; simp
    · simp [h, Ne.symm h]

/-- A lookup in a map built from those of its keys that have a value. -/
theorem get_filterMap_ofKeys (ks : List κ) (f : κ → Option ν) (k : κ) :
    get (ks.filterMap fun j => (f j).map (j, ·)) k = if k ∈ ks then f k else none := by
  induction ks with
  | nil => rfl
  | cons j ks ih =>
    by_cases hk : j = k
    · subst hk
      cases hf : f j with
      | none => rw [filterMap_cons_none (by rw [hf]; rfl), ih, hf, ite_self, ite_self]
      | some v => rw [filterMap_cons_some (by rw [hf]; rfl), get_cons]; simp
    · have hmem : k ∈ j :: ks ↔ k ∈ ks := by simp [Ne.symm hk]
      cases hf : f j with
      | none => rw [filterMap_cons_none (by rw [hf]; rfl), ih]; simp [hmem]
      | some v =>
        rw [filterMap_cons_some (by rw [hf]; rfl), get_cons, if_neg hk, ih]
        simp [hmem]

/-- Assigning other keys leaves a key alone. -/
theorem get_foldl_set {ι : Type*} (l : List ι) (key : ι → κ) (val : ι → ν) (m : AssocMap κ ν)
    (h : k ∉ l.map key) : get (l.foldl (fun m x => set m (key x) (val x)) m) k = get m k := by
  induction l generalizing m with
  | nil => rfl
  | cons x l ih =>
    rw [map_cons, mem_cons, not_or] at h
    rw [foldl_cons, ih _ h.2, get_set_ne _ _ (Ne.symm h.1)]

/-- Distinct keys set one after another each keep their value. -/
theorem get_foldl_set_of_mem {ι : Type*} {l : List ι} {key : ι → κ} (val : ι → ν)
    (m : AssocMap κ ν) (hl : (l.map key).Nodup) {x : ι} (hx : x ∈ l) :
    get (l.foldl (fun m i => set m (key i) (val i)) m) (key x) = some (val x) := by
  induction l generalizing m with
  | nil => cases hx
  | cons y l ih =>
    obtain ⟨hy, hl⟩ := nodup_cons.1 hl
    rcases mem_cons.1 hx with rfl | hx
    · rw [foldl_cons, get_foldl_set l key val _ hy, get_set_self]
    · exact ih _ hl hx

theorem mem_keys_foldl_set {ι : Type*} (l : List ι) (key : ι → κ) (val : ι → ν) (hk : k ∈ keys m) :
    k ∈ keys (l.foldl (fun m i => set m (key i) (val i)) m) :=
  foldlRecOn (motive := fun m => k ∈ keys m) _ _ hk fun _ h _ _ => mem_keys_set.2 (.inl h)

theorem mem_keys_setAll : k ∈ keys (setAll m m') ↔ k ∈ keys m ∨ k ∈ keys m' := by
  induction m' generalizing m with
  | nil => simp [setAll]
  | cons p m' ih =>
    rw [setAll, foldl_cons, ← setAll, ih, mem_keys_set, keys_cons, mem_cons]
    tauto

theorem get_setAll_of_not_mem (m : AssocMap κ ν) (h : k ∉ keys m') :
    get (setAll m m') k = get m k :=
  get_foldl_set m' Prod.fst Prod.snd m h

/-- The first of some assignments stays unless a later one is of its key. -/
theorem get_setAll_cons_self (h : k ∉ keys m') : get (setAll m ((k, v) :: m')) k = some v := by
  change get (setAll (set m k v) m') k = _
  rw [get_setAll_of_not_mem _ h, get_set_self]

/-- Assigning a map with distinct keys. -/
theorem get_setAll (m : AssocMap κ ν) (h : (keys m').Nodup) (k : κ) :
    get (setAll m m') k = (get m' k).or (get m k) := by
  induction m' generalizing m with
  | nil => rfl
  | cons p m' ih =>
    obtain ⟨hp, h⟩ := nodup_cons.1 h
    change get (setAll (set m p.1 p.2) m') k = _
    rw [ih _ h, get_set, get_cons]
    by_cases hk : p.1 = k
    · subst hk
      rw [(get_eq_none_iff m' p.1).2 hp]
      simp
    · simp [hk]

/-- A key with one value among the assignments gets it. -/
theorem get_setAll_of_mem (m : AssocMap κ ν) (h : (k, v) ∈ m') (huniq : ∀ w, (k, w) ∈ m' → w = v) :
    get (setAll m m') k = some v := by
  induction m' generalizing m with
  | nil => cases h
  | cons p m' ih =>
    change get (setAll (set m p.1 p.2) m') k = _
    by_cases hk : k ∈ keys m'
    · obtain ⟨q, hq, rfl⟩ := mem_map.1 hk
      have hv : q.2 = v := huniq q.2 (mem_cons_of_mem _ hq)
      exact ih _ (hv ▸ hq) fun w hw => huniq w (mem_cons_of_mem _ hw)
    · rcases mem_cons.1 h with rfl | h
      · rw [get_setAll_of_not_mem _ hk, get_set_self]
      · exact absurd (mem_map_of_mem h) hk

section FilterMap

variable {ω : Type*} {g : κ × ν → Option (κ × ω)} {f : κ → ν → Option ω}

omit [DecidableEq κ] in
theorem keys_filterMap_sublist (hg : ∀ k v, g (k, v) = (f k v).map (k, ·)) :
    (keys (m.filterMap g)).Sublist (keys m) := by
  induction m with
  | nil => exact List.Sublist.refl _
  | cons p m ih =>
    obtain ⟨k, v⟩ := p
    cases hf : f k v with
    | none =>
      rw [filterMap_cons_none (by rw [hg, hf]; rfl)]
      exact ih.cons _
    | some w =>
      rw [filterMap_cons_some (by rw [hg, hf]; rfl)]
      exact ih.cons_cons _

theorem get_filterMap (hg : ∀ k v, g (k, v) = (f k v).map (k, ·)) {m : AssocMap κ ν}
    (h : (keys m).Nodup) : get (m.filterMap g) k = (get m k).bind (f k) := by
  induction m with
  | nil => rfl
  | cons p m ih =>
    obtain ⟨k', v⟩ := p
    rw [keys_cons, nodup_cons] at h
    rw [get_cons]
    cases hf : f k' v with
    | none =>
      rw [filterMap_cons_none (by rw [hg, hf]; rfl), ih h.2]
      split_ifs with hk
      · subst hk
        rw [(get_eq_none_iff m _).2 h.1, Option.bind_some, hf]
        rfl
      · rfl
    | some w =>
      rw [filterMap_cons_some (by rw [hg, hf]; rfl), get_cons, ih h.2]
      split_ifs with hk
      · subst hk
        exact hf.symm
      · rfl

end FilterMap

end AssocMap
