import Mathlib.Data.List.Induction
import GenieAcs.Lib.InsMap

/-!
# Groups

Items collected under their keys, `m[k] = m[k] || []; m[k].push(a)`: a key is
there just when some item has it (`get?_groups`), and its group holds the
items in the order they came in.
-/

namespace GenieAcs

namespace InsMap

variable {K A : Type*} [DecidableEq K]

/-- `a` at the end of the group of `k`. -/
def push (m : InsMap K (List A)) (k : K) (a : A) : InsMap K (List A) :=
  m.set k ((m.get? k).getD [] ++ [a])

/-- The items that have a key, in groups. -/
def groups (key : A → Option K) (items : List A) : InsMap K (List A) :=
  items.foldl (fun m a => ((key a).map fun k => m.push k a).getD m) .empty

/-- The items with the key `k`. -/
def group (key : A → Option K) (k : K) (items : List A) : List A :=
  items.filter fun a => key a = some k

variable {key : A → Option K} {k : K} {items : List A}

theorem groups_concat (a : A) : groups key (items ++ [a])
    = ((key a).map fun k => (groups key items).push k a).getD (groups key items) := by
  rw [groups, List.foldl_append]
  rfl

theorem get?_push (m : InsMap K (List A)) (k k' : K) (a : A) :
    (m.push k a).get? k' = if k' = k then some ((m.get? k).getD [] ++ [a]) else m.get? k' :=
  get?_set ..

theorem get?_groups : (groups key items).get? k
    = if group key k items = [] then none else some (group key k items) := by
  induction items using List.reverseRecOn with
  | nil => rfl
  | append_singleton items a ih =>
      rw [groups_concat, group, List.filter_append]
      cases ha : key a with
      | none =>
          rw [List.filter_cons_of_neg (by simp [ha]), List.filter_nil, List.append_nil]
          exact ih
      | some k' =>
          rw [Option.map_some, Option.getD_some, get?_push]
          by_cases hk : k = k'
          · subst hk
            rw [List.filter_cons_of_pos (by simp [ha]), List.filter_nil, if_pos rfl,
              if_neg (by simp), ih]
            split_ifs with hnil
            · rw [show items.filter (fun a => decide (key a = some k)) = [] from hnil]
              rfl
            · rfl
          · rw [List.filter_cons_of_neg (by simp [ha, Ne.symm hk]), List.filter_nil,
              List.append_nil, if_neg hk]
            exact ih

theorem mem_entries_groups {e : K × List A} :
    e ∈ (groups key items).entries ↔ e.2 = group key e.1 items ∧ e.2 ≠ [] := by
  rw [← get?_eq_some, get?_groups]
  split_ifs with h
  · exact iff_of_false (by simp) fun he => he.2 (he.1.trans h)
  · rw [Option.some.injEq, eq_comm]
    exact ⟨fun heq => ⟨heq, heq ▸ h⟩, fun he => he.1⟩

theorem mem_group {a : A} : a ∈ group key k items ↔ a ∈ items ∧ key a = some k := by
  rw [group, List.mem_filter, decide_eq_true_eq]

theorem mem_keys_groups : k ∈ (groups key items).keys ↔ ∃ a ∈ items, key a = some k := by
  rw [mem_keys, get?_groups]
  split_ifs with h
  · refine iff_of_false (by simp) ?_
    rintro ⟨a, ha⟩
    exact List.not_mem_nil (h ▸ mem_group.mpr ha)
  · obtain ⟨a, ha⟩ := List.exists_mem_of_ne_nil _ h
    exact iff_of_true ⟨_, rfl⟩ ⟨a, mem_group.mp ha⟩

/-! ## Taking items out -/

section

variable {V : Type*} {f : V → List A}

omit [DecidableEq K] in
/-- The items of all the values, with their keys. -/
def allItems (f : V → List A) (m : InsMap K V) : List (K × A) :=
  m.entries.flatMap fun e => (f e.2).map (Prod.mk e.1)

theorem flatMap_replace {l : List (K × V)} {v v' : V} {a : A} (hk : find k l = some v)
    (hv : (f v).Perm (a :: f v')) :
    (l.flatMap fun e => (f e.2).map (Prod.mk e.1)).Perm
      ((k, a) :: (replace k v' l).flatMap fun e => (f e.2).map (Prod.mk e.1)) := by
  induction l with
  | nil => cases hk
  | cons e l ih =>
      obtain ⟨k', w⟩ := e
      rw [find] at hk
      rw [replace, List.flatMap_cons]
      split_ifs at hk ⊢ with heq
      · obtain rfl := Option.some.inj hk
        rw [List.flatMap_cons, heq, ← List.cons_append]
        exact ((hv.map (Prod.mk k)).trans (by rw [List.map_cons])).append_right _
      · rw [List.flatMap_cons]
        exact ((ih hk).append_left _).trans List.perm_middle

/-- One item is taken out of the value of its key. -/
theorem allItems_set {m : InsMap K V} {v v' : V} {a : A} (hk : m.get? k = some v)
    (hv : (f v).Perm (a :: f v')) : (m.allItems f).Perm ((k, a) :: (m.set k v').allItems f) := by
  have hmem : k ∈ m.keys := mem_keys.mpr ⟨v, hk⟩
  rw [allItems, allItems, set, dif_pos hmem]
  exact flatMap_replace hk hv

end

end InsMap

end GenieAcs
