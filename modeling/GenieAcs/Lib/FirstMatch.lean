import Mathlib.Data.List.Basic
import Mathlib.Tactic.Common

/-!
# The first branch whose guard holds

A list of guarded results gives the first result whose guard holds, if there
is one. The guards are propositions, so the lemmas serve any reading of a
conditional. What may be done to such a list without changing what it gives:
a guard counts only where no earlier one holds (`first_concat_congr`), equal
neighbours are one branch (`first_concat_same`), and a last branch with the
default result is no branch (`first_dropDefaults`).
-/

namespace GenieAcs

namespace FirstMatch

variable {α : Type*}

open Classical in
noncomputable def first : List (Prop × α) → Option α
  | [] => none
  | b :: bs => if b.1 then some b.2 else first bs

variable {bs cs : List (Prop × α)} {p q : Prop} {a : α}

@[simp]
theorem first_nil : first ([] : List (Prop × α)) = none := rfl

theorem first_cons_pos {b : Prop × α} (h : b.1) : first (b :: bs) = some b.2 := by
  rw [first, if_pos h]

theorem first_cons_neg {b : Prop × α} (h : ¬ b.1) : first (b :: bs) = first bs := by
  rw [first, if_neg h]

theorem first_append : first (bs ++ cs) = (first bs).or (first cs) := by
  induction bs with
  | nil => rfl
  | cons b bs ih =>
      by_cases hb : b.1
      · rw [List.cons_append, first_cons_pos hb, first_cons_pos hb]
        rfl
      · rw [List.cons_append, first_cons_neg hb, first_cons_neg hb, ih]

theorem first_eq_none : first bs = none ↔ ∀ b ∈ bs, ¬ b.1 := by
  induction bs with
  | nil => simp
  | cons b bs ih =>
      by_cases hb : b.1
      · simp [first_cons_pos hb, hb]
      · simp [first_cons_neg hb, hb, ih]

theorem exists_of_first {r : α} (h : first bs = some r) : ∃ b ∈ bs, b.1 ∧ b.2 = r := by
  induction bs with
  | nil => cases h
  | cons b bs ih =>
      by_cases hb : b.1
      · rw [first_cons_pos hb] at h
        exact ⟨b, List.mem_cons_self .., hb, Option.some.inj h⟩
      · rw [first_cons_neg hb] at h
        obtain ⟨b', hmem, hb'⟩ := ih h
        exact ⟨b', List.mem_cons_of_mem _ hmem, hb'⟩

theorem first_single_pos (h : p) : first [(p, a)] = some a := first_cons_pos h

theorem first_single_neg (h : ¬ p) : first [(p, a)] = none := first_cons_neg h

/-- What a guard is where an earlier one holds does not matter. -/
theorem first_concat_congr (h : (∀ b ∈ bs, ¬ b.1) → (p ↔ q)) :
    first (bs ++ [(p, a)]) = first (bs ++ [(q, a)]) := by
  rw [first_append, first_append]
  cases hbs : first bs with
  | some r => rfl
  | none => rw [propext (h (first_eq_none.mp hbs))]

/-- Two branches with one result. -/
theorem first_concat_same :
    first (bs ++ [(p, a)] ++ [(q, a)]) = first (bs ++ [(p ∨ q, a)]) := by
  rw [first_append, first_append, first_append, Option.or_assoc]
  congr 1
  by_cases hp : p
  · rw [first_single_pos hp, first_single_pos (Or.inl hp)]
    rfl
  · rw [first_single_neg hp, Option.none_or]
    by_cases hq : q
    · rw [first_single_pos hq, first_single_pos (Or.inr hq)]
    · rw [first_single_neg hq, first_single_neg (not_or.mpr ⟨hp, hq⟩)]

/-- Branches behind one that is always taken. -/
theorem first_append_always (h : ∃ b ∈ bs, b.1) : first (bs ++ cs) = first bs := by
  rw [first_append]
  cases hbs : first bs with
  | some r => rfl
  | none =>
      obtain ⟨b, hmem, hb⟩ := h
      exact absurd hb (first_eq_none.mp hbs b hmem)

/-- Branches whose guards do not hold may go. -/
theorem first_filter {γ : Type*} (keep : γ → Bool) (g : γ → Prop × α) {ds : List γ}
    (h : ∀ d ∈ ds, keep d = false → ¬ (g d).1) :
    first ((ds.filter keep).map g) = first (ds.map g) := by
  induction ds with
  | nil => rfl
  | cons d ds ih =>
      have ih := ih fun d' hd' => h d' (List.mem_cons_of_mem _ hd')
      by_cases hk : keep d = true
      · rw [List.filter_cons_of_pos hk, List.map_cons, List.map_cons, first, first, ih]
      · have hd := h d (List.mem_cons_self ..) (by simpa using hk)
        rw [List.filter_cons_of_neg hk, ih, List.map_cons, first_cons_neg hd]

/-! ## Results that may be missing -/

variable {β : Type*}

/-- The result of the first branch that is taken, `none` by default. -/
noncomputable def value (bs : List (Prop × Option β)) : Option β := (first bs).join

theorem value_cons_pos {b : Prop × Option β} {bs : List (Prop × Option β)} (h : b.1) :
    value (b :: bs) = b.2 := by
  rw [value, first_cons_pos h]
  rfl

theorem value_cons_neg {b : Prop × Option β} {bs : List (Prop × Option β)} (h : ¬ b.1) :
    value (b :: bs) = value bs := by
  rw [value, first_cons_neg h, value]

theorem exists_of_value {bs : List (Prop × Option β)} {v : β} (h : value bs = some v) :
    ∃ b ∈ bs, b.1 ∧ b.2 = some v := by
  cases hfirst : first bs with
  | none =>
      rw [value, hfirst] at h
      cases h
  | some r =>
      rw [value, hfirst] at h
      obtain ⟨b, hmem, hb, rfl⟩ := exists_of_first hfirst
      exact ⟨b, hmem, hb, h⟩

/-- Trailing branches with the default result may go; `bs` has the last first. -/
theorem value_dropDefaults (isDefault : Prop × Option β → Bool)
    (h : ∀ b, isDefault b = true → b.2 = none) (bs : List (Prop × Option β)) :
    value (bs.dropWhile isDefault).reverse = value bs.reverse := by
  induction bs with
  | nil => rfl
  | cons b bs ih =>
      by_cases hd : isDefault b = true
      · rw [List.dropWhile_cons_of_pos hd, ih, List.reverse_cons, value, value, first_append]
        cases first bs.reverse with
        | some r => rfl
        | none =>
            by_cases hb : b.1
            · rw [first_cons_pos hb, h b hd]
              rfl
            · rw [first_cons_neg hb]
              rfl
      · rw [List.dropWhile_cons_of_neg hd]

end FirstMatch

end GenieAcs
