import GenieAcs.Expression
import Mathlib.Data.Sum.Order
import Mathlib.Algebra.Order.Ring.Rat

/-!
# The order of values

`Value.rank` places a value in a linear order: numbers, with booleans among
them, and strings above all numbers. `Value.compare` compares ranks, so two
values it finds equal are alike for every comparison.
-/

namespace GenieAcs

section

variable {α : Type} [LinearOrder α] [DecidableLT α] {a b : α}

theorem compareLt_eq_lt : compareLt a b = .lt ↔ a < b := by
  unfold compareLt
  split_ifs with h h'
  · simpa using h.le
  · simpa using h'
  · simpa using h'

theorem compareLt_eq_gt : compareLt a b = .gt ↔ b < a := by
  unfold compareLt
  split_ifs with h h'
  · simpa using h
  · simpa using h'.le
  · simpa using h

theorem compareLt_eq_eq : compareLt a b = .eq ↔ a = b := by
  unfold compareLt
  split_ifs with h h'
  · simpa using h.ne'
  · simpa using h'.ne
  · simpa using le_antisymm (not_lt.mp h) (not_lt.mp h')

end

/-- The place of a value in the order of all values. -/
def Value.rank : Value → Lex (ℚ ⊕ List ℕ)
  | .bool b => toLex (.inl (boolToNumber b))
  | .num q => toLex (.inl q)
  | .str s => toLex (.inr s)

namespace Value

variable {a b : Value}

theorem compare_eq_lt : a.compare b = .lt ↔ a.rank < b.rank := by
  rcases a with x | x | x <;> rcases b with y | y | y
  all_goals first
    | exact compareLt_eq_lt.trans Sum.Lex.inl_lt_inl_iff.symm
    | exact compareLt_eq_lt.trans Sum.Lex.inr_lt_inr_iff.symm
    | exact iff_of_true rfl (Sum.Lex.inl_lt_inr _ _)
    | exact iff_of_false Ordering.noConfusion Sum.Lex.not_inr_lt_inl

theorem compare_eq_gt : a.compare b = .gt ↔ b.rank < a.rank := by
  rcases a with x | x | x <;> rcases b with y | y | y
  all_goals first
    | exact compareLt_eq_gt.trans Sum.Lex.inl_lt_inl_iff.symm
    | exact compareLt_eq_gt.trans Sum.Lex.inr_lt_inr_iff.symm
    | exact iff_of_true rfl (Sum.Lex.inl_lt_inr _ _)
    | exact iff_of_false Ordering.noConfusion Sum.Lex.not_inr_lt_inl

theorem compare_eq_eq : a.compare b = .eq ↔ a.rank = b.rank := by
  rcases h : a.compare b with _ | _ | _
  · simpa using (compare_eq_lt.mp h).ne
  · have hlt : ¬ a.rank < b.rank := fun hl => by simpa [h] using compare_eq_lt.mpr hl
    have hgt : ¬ b.rank < a.rank := fun hl => by simpa [h] using compare_eq_gt.mpr hl
    simpa using le_antisymm (not_lt.mp hgt) (not_lt.mp hlt)
  · simpa using (compare_eq_gt.mp h).ne'

/-- Swapping the values swaps the result. -/
theorem compare_swap (a b : Value) : b.compare a = (a.compare b).swap := by
  rcases h : a.compare b with _ | _ | _
  · exact compare_eq_gt.mpr (compare_eq_lt.mp h)
  · exact compare_eq_eq.mpr (compare_eq_eq.mp h).symm
  · exact compare_eq_lt.mpr (compare_eq_gt.mp h)

end Value

end GenieAcs
