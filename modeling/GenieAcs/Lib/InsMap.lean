import Mathlib.Data.List.Nodup
import Mathlib.Data.List.Perm.Subperm

/-!
# Insertion-ordered finite maps

An association list whose keys are distinct, listed in the order they were
first inserted. Overwriting a key keeps its place, a new key goes to the
end, and the distinctness of the keys is a field, so no map with two values
for one key can be built.

`set`, `erase` and `filterMap` are characterised by what `get?` returns
afterwards (`get?_set`, `get?_erase`, `get?_filterMap`); everything else
goes through these.
-/

namespace GenieAcs

/-- A finite map with its entries in insertion order. -/
structure InsMap (K V : Type*) where
  entries : List (K × V)
  nodup : (entries.map Prod.fst).Nodup

namespace InsMap

variable {K V W : Type*}

@[ext]
theorem ext {m m' : InsMap K V} (h : m.entries = m'.entries) : m = m' := by
  cases m; cases m'; cases h; rfl

def empty : InsMap K V := ⟨[], List.nodup_nil⟩

instance : Inhabited (InsMap K V) := ⟨empty⟩

/-- The keys, in insertion order. -/
def keys (m : InsMap K V) : List K := m.entries.map Prod.fst

instance [DecidableEq K] [DecidableEq V] : DecidableEq (InsMap K V) := fun m m' =>
  decidable_of_iff (m.entries = m'.entries) ⟨InsMap.ext, fun h => h ▸ rfl⟩

variable [DecidableEq K]

/-! ## Lookup in a list of pairs -/

/-- The value of the first pair with key `k`. -/
def find (k : K) : List (K × V) → Option V
  | [] => none
  | (k', v) :: rest => if k' = k then some v else find k rest

theorem find_cons (k k' : K) (v : V) (rest : List (K × V)) :
    find k ((k', v) :: rest) = if k' = k then some v else find k rest := rfl

theorem find_eq_none {k : K} {l : List (K × V)} (h : k ∉ l.map Prod.fst) :
    find k l = none := by
  induction l with
  | nil => rfl
  | cons e rest ih =>
      obtain ⟨k', v⟩ := e
      simp only [List.map_cons, List.mem_cons, not_or] at h
      rw [find_cons, if_neg (Ne.symm h.1), ih h.2]

theorem find_ne_none_of_mem {k : K} {v : V} {l : List (K × V)} (h : (k, v) ∈ l) :
    find k l ≠ none := by
  induction l with
  | nil => cases h
  | cons e rest ih =>
      obtain ⟨k', v'⟩ := e
      rw [find_cons]
      split
      · exact Option.some_ne_none _
      · rename_i hne
        rcases List.mem_cons.mp h with heq | hrest
        · exact absurd (Prod.mk.inj heq).1.symm hne
        · exact ih hrest

theorem mem_of_find {k : K} {v : V} {l : List (K × V)} (h : find k l = some v) :
    (k, v) ∈ l := by
  induction l with
  | nil => cases h
  | cons e rest ih =>
      obtain ⟨k', v'⟩ := e
      rw [find_cons] at h
      by_cases hk : k' = k
      · rw [if_pos hk] at h
        obtain rfl := Option.some.inj h
        exact hk ▸ List.mem_cons_self ..
      · rw [if_neg hk] at h
        exact List.mem_cons_of_mem _ (ih h)

theorem find_of_mem {k : K} {v : V} {l : List (K × V)}
    (hnd : (l.map Prod.fst).Nodup) (h : (k, v) ∈ l) : find k l = some v := by
  induction l with
  | nil => cases h
  | cons e rest ih =>
      obtain ⟨k', v'⟩ := e
      rw [List.map_cons, List.nodup_cons] at hnd
      rcases List.mem_cons.mp h with heq | hrest
      · obtain ⟨rfl, rfl⟩ := Prod.mk.inj heq
        rw [find_cons, if_pos rfl]
      · have hne : k' ≠ k := fun hk =>
          hnd.1 (List.mem_map.mpr ⟨(k, v), hrest, hk.symm⟩)
        rw [find_cons, if_neg hne, ih hnd.2 hrest]

theorem find_append {k : K} {l l' : List (K × V)} :
    find k (l ++ l') = (find k l).or (find k l') := by
  induction l with
  | nil => rfl
  | cons e rest ih =>
      obtain ⟨k', v⟩ := e
      by_cases hk : k' = k
      · simp [find_cons, hk]
      · simp [find_cons, hk, ih]

/-! ## The operations -/

def get? (m : InsMap K V) (k : K) : Option V := find k m.entries

theorem get?_eq_some {m : InsMap K V} {k : K} {v : V} :
    m.get? k = some v ↔ (k, v) ∈ m.entries :=
  ⟨mem_of_find, find_of_mem m.nodup⟩

theorem get?_eq_none {m : InsMap K V} {k : K} : m.get? k = none ↔ k ∉ m.keys := by
  constructor
  · intro h hk
    obtain ⟨⟨k', v⟩, hmem, rfl⟩ := List.mem_map.mp hk
    rw [get?_eq_some.mpr hmem] at h
    cases h
  · exact find_eq_none

theorem mem_keys {m : InsMap K V} {k : K} : k ∈ m.keys ↔ ∃ v, m.get? k = some v := by
  constructor
  · intro hk
    obtain ⟨⟨k', v⟩, hmem, rfl⟩ := List.mem_map.mp hk
    exact ⟨v, get?_eq_some.mpr hmem⟩
  · rintro ⟨v, h⟩
    exact List.mem_map.mpr ⟨(k, v), get?_eq_some.mp h, rfl⟩

@[simp]
theorem get?_empty (k : K) : (empty : InsMap K V).get? k = none := rfl

/-- Overwrite the value of the first pair with key `k`. -/
def replace (k : K) (v : V) : List (K × V) → List (K × V)
  | [] => []
  | (k', v') :: rest => if k' = k then (k', v) :: rest else (k', v') :: replace k v rest

theorem replace_cons (k k' : K) (v v' : V) (rest : List (K × V)) :
    replace k v ((k', v') :: rest)
      = if k' = k then (k', v) :: rest else (k', v') :: replace k v rest := rfl

theorem replace_keys (k : K) (v : V) (l : List (K × V)) :
    (replace k v l).map Prod.fst = l.map Prod.fst := by
  induction l with
  | nil => rfl
  | cons e rest ih =>
      obtain ⟨k', v'⟩ := e
      by_cases hk : k' = k <;> simp [replace_cons, hk, ih]

theorem find_replace {k : K} {v : V} {l : List (K × V)} (h : k ∈ l.map Prod.fst) (k' : K) :
    find k' (replace k v l) = if k' = k then some v else find k' l := by
  induction l with
  | nil => cases h
  | cons e rest ih =>
      obtain ⟨k₀, v₀⟩ := e
      by_cases hk : k₀ = k
      · subst hk
        by_cases hk' : k' = k₀
        · simp [replace_cons, find_cons, hk']
        · simp [replace_cons, find_cons, hk', Ne.symm hk']
      · have hrest : k ∈ rest.map Prod.fst := by
          rcases List.mem_cons.mp h with heq | hm
          · exact absurd heq.symm hk
          · exact hm
        by_cases hk' : k' = k
        · subst hk'
          rw [if_pos rfl, replace_cons, if_neg hk, find_cons, if_neg hk, ih hrest, if_pos rfl]
        · rw [if_neg hk', replace_cons, if_neg hk, find_cons, find_cons, ih hrest, if_neg hk']

/-- Overwrite in place, or append. -/
def set (m : InsMap K V) (k : K) (v : V) : InsMap K V :=
  if h : k ∈ m.keys then
    ⟨replace k v m.entries, by rw [replace_keys]; exact m.nodup⟩
  else
    ⟨m.entries ++ [(k, v)], by
      rw [List.map_append, List.map_singleton]
      exact List.nodup_append.mpr ⟨m.nodup, List.nodup_singleton _, fun a ha b hb => by
        rw [List.mem_singleton.mp hb]; rintro rfl; exact h ha⟩⟩

theorem get?_set (m : InsMap K V) (k : K) (v : V) (k' : K) :
    (m.set k v).get? k' = if k' = k then some v else m.get? k' := by
  by_cases h : k ∈ m.keys
  · rw [set, dif_pos h]
    exact find_replace h k'
  · rw [set, dif_neg h, get?, find_append, ← get?]
    by_cases hk : k' = k
    · subst hk
      simp [get?_eq_none.mpr h, find]
    · simp [hk, Ne.symm hk, find]

@[simp]
theorem get?_set_self (m : InsMap K V) (k : K) (v : V) : (m.set k v).get? k = some v := by
  rw [get?_set, if_pos rfl]

theorem get?_set_of_ne (m : InsMap K V) {k k' : K} (h : k' ≠ k) (v : V) :
    (m.set k v).get? k' = m.get? k' := by
  rw [get?_set, if_neg h]

def erase (m : InsMap K V) (k : K) : InsMap K V :=
  ⟨m.entries.filter (fun e => e.1 ≠ k), m.nodup.sublist (List.filter_sublist.map Prod.fst)⟩

omit [DecidableEq K] in
/-- Keep an entry under its own key with a new value, or drop it. -/
theorem filterMap_keys_sublist (f : K → V → Option W) (l : List (K × V)) :
    ((l.filterMap (fun e => (f e.1 e.2).map (e.1, ·))).map Prod.fst).Sublist
      (l.map Prod.fst) := by
  induction l with
  | nil => exact List.Sublist.refl _
  | cons e rest ih =>
      cases hf : f e.1 e.2 with
      | none => simpa [List.filterMap_cons, hf] using ih.cons e.1
      | some w => simpa [List.filterMap_cons, hf] using ih.cons_cons e.1

omit [DecidableEq K] in
/-- Map every value, dropping the entries sent to `none`. -/
def filterMap (m : InsMap K V) (f : K → V → Option W) : InsMap K W :=
  ⟨m.entries.filterMap (fun e => (f e.1 e.2).map (e.1, ·)),
    m.nodup.sublist (filterMap_keys_sublist f m.entries)⟩

theorem get?_filterMap (m : InsMap K V) (f : K → V → Option W) (k : K) :
    (m.filterMap f).get? k = (m.get? k).bind (f k) := by
  cases hk : (m.get? k).bind (f k) with
  | some w =>
      obtain ⟨v, hv, hw⟩ := Option.bind_eq_some_iff.mp hk
      exact get?_eq_some.mpr (List.mem_filterMap.mpr
        ⟨(k, v), get?_eq_some.mp hv, by simp [hw]⟩)
  | none =>
      cases hg : (m.filterMap f).get? k with
      | none => rfl
      | some w =>
          obtain ⟨⟨k', v⟩, hmem, heq⟩ := List.mem_filterMap.mp (get?_eq_some.mp hg)
          obtain ⟨w', hw', hpair⟩ := Option.map_eq_some_iff.mp heq
          obtain ⟨rfl, rfl⟩ := Prod.mk.inj hpair
          rw [get?_eq_some.mpr hmem, Option.bind_some, hw'] at hk
          cases hk

theorem get?_erase (m : InsMap K V) (k k' : K) :
    (m.erase k).get? k' = if k' = k then none else m.get? k' := by
  by_cases hk : k' = k
  · subst hk
    rw [if_pos rfl, get?_eq_none]
    intro hmem
    obtain ⟨e, he, heq⟩ := List.mem_map.mp hmem
    simp only [erase, List.mem_filter, decide_eq_true_eq] at he
    exact he.2 heq
  · rw [if_neg hk]
    cases hg : m.get? k' with
    | some v =>
        exact get?_eq_some.mpr (List.mem_filter.mpr
          ⟨get?_eq_some.mp hg, by simpa using hk⟩)
    | none =>
        refine get?_eq_none.mpr fun hmem => get?_eq_none.mp hg ?_
        exact (List.filter_sublist.map Prod.fst).subset hmem

end InsMap

end GenieAcs
