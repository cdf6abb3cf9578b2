import Mathlib.Data.List.Nodup

/-!
# Keyed tables

A table of rows with a primary key.  The key is part of the type: a table in which two rows share a
key cannot be built, an insertion that would make one is refused, and an update never rewrites a
key.

## Main results

* `Table.find_eq_some_iff` : looking up a key finds the one row that holds it.
* `Table.find_modify`, `Table.find_delete_key`, `Table.find_insert` : the rows after each statement.
-/

/-- Rows with a primary key. -/
class Keyed (ρ : Type) where
  key : ρ → String

/-- A table: rows with distinct keys. -/
structure Table (ρ : Type) [Keyed ρ] where
  rows : List ρ
  keys_nodup : (rows.map Keyed.key).Nodup

namespace Table

open List Keyed

variable {ρ : Type} [Keyed ρ]

/-- The table without rows. -/
def empty : Table ρ := ⟨[], nodup_nil⟩

instance : Inhabited (Table ρ) := ⟨empty⟩

/-- The row of a key. -/
def find (t : Table ρ) (k : String) : Option ρ := t.rows.find? (Keyed.key · = k)

/-- Add a row, unless its key is taken. -/
def insert (t : Table ρ) (r : ρ) : Option (Table ρ) :=
  if h : key r ∈ t.rows.map key then none
  else some ⟨t.rows ++ [r], by
    rw [map_append, nodup_append]
    refine ⟨t.keys_nodup, nodup_singleton _, fun a ha b hb hab => h ?_⟩
    rw [map_singleton, mem_singleton] at hb
    exact hb ▸ hab ▸ ha⟩

/-- Rewrite the rows that `p` selects, keeping their keys. -/
def modify (t : Table ρ) (p : ρ → Bool) (f : ρ → ρ) (hf : ∀ r, Keyed.key (f r) = Keyed.key r) :
    Table ρ :=
  ⟨t.rows.map fun r => if p r then f r else r, by
    have : (key ∘ fun r => if p r then f r else r) = (key : ρ → String) := by
      funext r
      simp only [Function.comp]
      split_ifs
      · exact hf r
      · rfl
    rw [map_map, this]
    exact t.keys_nodup⟩

/-- Drop the rows that `p` selects. -/
def delete (t : Table ρ) (p : ρ → Bool) : Table ρ :=
  ⟨t.rows.filter fun r => !p r, t.keys_nodup.sublist (filter_sublist.map _)⟩

variable {r : ρ} {t : Table ρ}

theorem key_inj (t : Table ρ) {s : ρ} (hr : r ∈ t.rows) (hs : s ∈ t.rows)
    (h : key r = key s) : r = s :=
  inj_on_of_nodup_map t.keys_nodup hr hs h

/-- A lookup finds the one row that holds the key. -/
theorem find_eq_some_iff {k : String} : t.find k = some r ↔ r ∈ t.rows ∧ Keyed.key r = k := by
  constructor
  · intro h
    exact ⟨mem_of_find?_eq_some h, by simpa using find?_some h⟩
  · rintro ⟨hr, rfl⟩
    cases h : t.find (key r) with
    | none =>
      rw [find, find?_eq_none] at h
      exact absurd (by simp) (h r hr)
    | some s =>
      have hs := mem_of_find?_eq_some h
      have hk : key s = key r := by simpa using find?_some h
      rw [t.key_inj hs hr hk]

theorem find_eq_none_iff {k : String} : t.find k = none ↔ ∀ r ∈ t.rows, Keyed.key r ≠ k := by
  simp [find]

variable {p : ρ → Bool}

/-- The row of a key after an update. -/
theorem find_modify (f : ρ → ρ) (hf : ∀ r, key (f r) = key r) (k : String) :
    (t.modify p f hf).find k = (t.find k).map fun r => if p r then f r else r := by
  simp only [find, modify, find?_map]
  congr 2
  funext r
  simp only [Function.comp]
  split_ifs
  · rw [hf]
  · rfl

/-- An update that selects no row does nothing. -/
theorem modify_of_forall (f : ρ → ρ) (hf : ∀ r, key (f r) = key r)
    (h : ∀ r ∈ t.rows, p r = false) : t.modify p f hf = t := by
  obtain ⟨rows, hrows⟩ := t
  simp only [modify, mk.injEq]
  conv_rhs => rw [← map_id rows]
  exact map_congr_left fun r hr => by simp [h r hr]

/-- A deletion that selects no row does nothing. -/
theorem delete_of_forall (h : ∀ r ∈ t.rows, p r = false) : t.delete p = t := by
  obtain ⟨rows, hrows⟩ := t
  simp only [delete, mk.injEq]
  exact filter_eq_self.2 fun r hr => by simp [h r hr]

/-- The row of a key after a deletion of rows chosen by their key. -/
theorem find_delete_key (j k : String) :
    (t.delete (key · = j)).find k = if j = k then none else t.find k := by
  ext r
  rw [find_eq_some_iff]
  simp only [delete, mem_filter, Bool.not_eq_eq_eq_not, Bool.not_true, decide_eq_false_iff_not]
  split_ifs with h
  · subst h
    simp only [iff_false]
    rintro ⟨⟨-, hne⟩, he⟩
    exact hne he
  · rw [find_eq_some_iff]
    constructor
    · rintro ⟨⟨hr, -⟩, he⟩; exact ⟨hr, he⟩
    · rintro ⟨hr, he⟩; exact ⟨⟨hr, fun hj => h (hj ▸ he)⟩, he⟩

/-- What an insertion that goes through leaves. -/
theorem insert_eq_some {t' : Table ρ} (h : t.insert r = some t') :
    t.find (key r) = none ∧ t'.rows = t.rows ++ [r] := by
  rw [insert] at h
  split_ifs at h with hk
  obtain rfl := Option.some.inj h
  refine ⟨find_eq_none_iff.2 fun s hs he => hk ?_, rfl⟩
  exact he ▸ mem_map_of_mem hs

/-- The row of a key after an insertion. -/
theorem find_insert {t' : Table ρ} (h : t.insert r = some t') (k : String) :
    t'.find k = if key r = k then some r else t.find k := by
  obtain ⟨hnone, hrows⟩ := insert_eq_some h
  simp only [find] at hnone ⊢
  rw [hrows, find?_append]
  split_ifs with hk
  · subst hk
    rw [hnone]
    simp
  · simp [hk]

end Table
