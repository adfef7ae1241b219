import Mathlib.Data.List.Lex
import Mathlib.Data.Nat.Digits.Lemmas
import Mathlib.Tactic.Common
import Mathlib.Tactic.Ring

/-!
# Numerals

Words over an alphabet of digits, read as numbers in a base with the first digit the
highest. Words of one length are ordered as their numbers are (`value_lt_iff`). What
precedes an arbitrary word is cut off at a number as well, once it is known where the
first differing digit leaves it (`append_lt_iff`).
-/

namespace GenieAcs

namespace Numeral

section

variable {α : Type} (digit : α → ℕ) (b : ℕ)

def value : List α → ℕ
  | [] => 0
  | a :: w => digit a * b ^ w.length + value w

variable {digit b} {u v w : List α}

theorem value_append : value digit b (u ++ v) = value digit b u * b ^ v.length + value digit b v := by
  induction u with
  | nil => rw [List.nil_append, value, Nat.zero_mul, Nat.zero_add]
  | cons a u ih =>
      rw [List.cons_append, value, value, ih, List.length_append]
      ring

theorem value_lt (h : ∀ a ∈ w, digit a < b) : value digit b w < b ^ w.length := by
  induction w with
  | nil => exact Nat.one_pos
  | cons a w ih =>
      obtain ⟨ha, hw⟩ := List.forall_mem_cons.mp h
      have hstep : (digit a + 1) * b ^ w.length ≤ b * b ^ w.length := Nat.mul_le_mul_right _ ha
      have hlt := ih hw
      rw [value, List.length_cons, pow_succ']
      rw [Nat.add_mul] at hstep
      omega

theorem value_eq_zero (hb : 0 < b) : value digit b w = 0 ↔ ∀ a ∈ w, digit a = 0 := by
  induction w with
  | nil => exact iff_of_true rfl fun _ h => absurd h List.not_mem_nil
  | cons a w ih =>
      have hpos : b ^ w.length ≠ 0 := (Nat.pow_pos hb).ne'
      rw [value, Nat.add_eq_zero_iff, Nat.mul_eq_zero, or_iff_left hpos, ih, List.forall_mem_cons]

/-- The highest number of a length has the highest digit everywhere. -/
theorem value_top (h : ∀ a ∈ w, digit a < b) :
    value digit b w + 1 = b ^ w.length ↔ ∀ a ∈ w, digit a + 1 = b := by
  induction w with
  | nil => exact iff_of_true rfl fun _ h => absurd h List.not_mem_nil
  | cons a w ih =>
      obtain ⟨ha, hw⟩ := List.forall_mem_cons.mp h
      have hlt := value_lt hw
      rw [value, List.length_cons, pow_succ', List.forall_mem_cons, ← ih hw]
      rcases Nat.lt_or_ge (digit a + 1) b with hdigit | hdigit
      · have hstep : (digit a + 2) * b ^ w.length ≤ b * b ^ w.length :=
          Nat.mul_le_mul_right _ hdigit
        rw [Nat.add_mul] at hstep
        exact iff_of_false (by omega) (by omega)
      · obtain rfl : b = digit a + 1 := le_antisymm hdigit ha
        rw [Nat.add_mul, Nat.one_mul]
        omega

/-- The digits of a number, lowest first. -/
theorem value_reverse : value digit b w.reverse = Nat.ofDigits b (w.map digit) := by
  induction w with
  | nil => rfl
  | cons a w ih =>
      rw [List.reverse_cons, value_append, ih, List.map_cons, Nat.ofDigits_cons]
      simp only [value, List.length_singleton, List.length_nil, pow_zero, pow_one]
      ring

theorem value_digits {unit : ℕ → α} (hb : 1 < b) (hunit : ∀ d < b, digit (unit d) = d) (n : ℕ) :
    value digit b ((b.digits n).map unit).reverse = n := by
  rw [value_reverse, List.map_map]
  have hmap : (b.digits n).map (digit ∘ unit) = b.digits n :=
    (List.map_congr_left fun d hd => hunit d (Nat.digits_lt_base hb hd)).trans (List.map_id _)
  rw [hmap, Nat.ofDigits_digits]

/-- Digits, lowest first, are those of their number and zeros. -/
theorem digits_ofDigits_append (hb : 1 < b) {l : List ℕ} (h : ∀ d ∈ l, d < b) :
    ∃ k, l = b.digits (Nat.ofDigits b l) ++ List.replicate k 0 := by
  induction l with
  | nil => exact ⟨0, by simp⟩
  | cons d l ih =>
      obtain ⟨hd, hl⟩ := List.forall_mem_cons.mp h
      obtain ⟨k, hk⟩ := ih hl
      rw [Nat.ofDigits_cons]
      by_cases hzero : d = 0 ∧ Nat.ofDigits b l = 0
      · obtain ⟨rfl, hrest⟩ := hzero
        rw [hrest, Nat.digits_zero, List.nil_append] at hk
        refine ⟨k + 1, ?_⟩
        rw [hrest, Nat.mul_zero, Nat.add_zero, Nat.digits_zero, List.nil_append, List.replicate_succ,
          ← hk]
      · refine ⟨k, ?_⟩
        have hdigits := Nat.digits_add b hb d (Nat.ofDigits b l) hd (by
          rw [← not_and_or]
          exact hzero)
        rw [hdigits, List.cons_append, ← hk]

/-- A word ends with the numeral of its number. -/
theorem numeral_suffix {unit : ℕ → α} (hb : 1 < b) (h : ∀ a ∈ w, digit a < b ∧ unit (digit a) = a) :
    ((b.digits (value digit b w)).map unit).reverse <:+ w := by
  have hlt : ∀ d ∈ w.reverse.map digit, d < b := by
    intro d hd
    obtain ⟨a, ha, rfl⟩ := List.mem_map.mp hd
    exact (h a (List.mem_reverse.mp ha)).1
  obtain ⟨k, hk⟩ := digits_ofDigits_append hb hlt
  have hvalue : Nat.ofDigits b (w.reverse.map digit) = value digit b w := by
    rw [← value_reverse, List.reverse_reverse]
  rw [hvalue] at hk
  have hunits : (w.reverse.map digit).map unit = w.reverse := by
    rw [List.map_map]
    refine (List.map_congr_left fun a ha => ?_).trans (List.map_id _)
    exact (h a (List.mem_reverse.mp ha)).2
  refine ⟨((List.replicate k 0).map unit).reverse, ?_⟩
  rw [← List.reverse_append, ← List.map_append, ← hk, hunits, List.reverse_reverse]

end

/-! ## The order of words -/

section

variable {α : Type} [LinearOrder α] {digit : α → ℕ} {b : ℕ} {A : α → Prop} {u v w rest : List α}

theorem append_lt_append (hlen : u.length = v.length) :
    u ++ w < v ++ rest ↔ u < v ∨ u = v ∧ w < rest := by
  induction u generalizing v with
  | nil =>
      rw [List.eq_nil_of_length_eq_zero hlen.symm]
      simp
  | cons a u ih =>
      cases v with
      | nil => cases hlen
      | cons c v =>
          rw [List.cons_append, List.cons_append, List.cons_lt_cons_iff, List.cons_lt_cons_iff,
            ih (Nat.succ.inj hlen), List.cons.injEq]
          tauto

variable (hmono : ∀ x y, A x → A y → (x < y ↔ digit x < digit y)) (hlt : ∀ x, A x → digit x < b)

include hmono hlt

theorem value_lt_iff (hlen : u.length = v.length) (hu : ∀ a ∈ u, A a) (hv : ∀ a ∈ v, A a) :
    u < v ↔ value digit b u < value digit b v := by
  induction u generalizing v with
  | nil =>
      rw [List.eq_nil_of_length_eq_zero hlen.symm]
      exact iff_of_false (List.not_lt_nil _) (Nat.lt_irrefl _)
  | cons a u ih =>
      cases v with
      | nil => cases hlen
      | cons c v =>
          obtain ⟨ha, hu⟩ := List.forall_mem_cons.mp hu
          obtain ⟨hc, hv⟩ := List.forall_mem_cons.mp hv
          have hlen := Nat.succ.inj hlen
          have hul := value_lt fun x hx => hlt x (hu x hx)
          have hvl := value_lt fun x hx => hlt x (hv x hx)
          rw [List.cons_lt_cons_iff, ih hlen hu hv, hmono a c ha hc, value, value, hlen]
          rw [hlen] at hul
          rcases lt_trichotomy (digit a) (digit c) with h | h | h
          · have hstep : (digit a + 1) * b ^ v.length ≤ digit c * b ^ v.length :=
              Nat.mul_le_mul_right _ h
            rw [Nat.add_mul] at hstep
            exact iff_of_true (Or.inl h) (by omega)
          · have hac : a = c := by
              have hle := (hmono a c ha hc).not.mpr (by omega)
              have hge := (hmono c a hc ha).not.mpr (by omega)
              exact le_antisymm (not_lt.mp hge) (not_lt.mp hle)
            rw [h]
            refine ⟨?_, fun _ => Or.inr ⟨hac, by omega⟩⟩
            rintro (h' | ⟨-, h'⟩)
            · exact absurd h' (Nat.lt_irrefl _)
            · omega
          · have hstep : (digit c + 1) * b ^ v.length ≤ digit a * b ^ v.length :=
              Nat.mul_le_mul_right _ h
            rw [Nat.add_mul] at hstep
            refine iff_of_false ?_ (by omega)
            rintro (h' | ⟨rfl, -⟩)
            · omega
            · omega

theorem value_inj (hlen : u.length = v.length) (hu : ∀ a ∈ u, A a) (hv : ∀ a ∈ v, A a) :
    u = v ↔ value digit b u = value digit b v := by
  constructor
  · rintro rfl
    rfl
  · intro h
    have hle := (value_lt_iff hmono hlt hlen hu hv).not.mpr h.not_lt
    have hge := (value_lt_iff hmono hlt hlen.symm hv hu).not.mpr h.symm.not_lt
    exact le_antisymm (not_lt.mp hge) (not_lt.mp hle)

/-- The words before a text that goes on where the digits end. -/
theorem append_lt_iff {cut : ℕ} (hlen : u.length = v.length) (hu : ∀ a ∈ u, A a)
    (hv : ∀ a ∈ v, A a) (hw : ∀ a ∈ w, A a) (hcut : cut ≤ b ^ w.length)
    (hrest : w < rest ↔ value digit b w < cut) :
    u ++ w < v ++ rest
      ↔ value digit b (u ++ w) < value digit b v * b ^ w.length + cut := by
  have hwl := value_lt fun x hx => hlt x (hw x hx)
  rw [append_lt_append hlen, value_lt_iff hmono hlt hlen hu hv,
    value_inj hmono hlt hlen hu hv, hrest, value_append]
  rcases lt_trichotomy (value digit b u) (value digit b v) with h | h | h
  · have hstep : (value digit b u + 1) * b ^ w.length ≤ value digit b v * b ^ w.length :=
      Nat.mul_le_mul_right _ h
    rw [Nat.add_mul] at hstep
    exact iff_of_true (Or.inl h) (by omega)
  · rw [h]
    omega
  · have hstep : (value digit b v + 1) * b ^ w.length ≤ value digit b u * b ^ w.length :=
      Nat.mul_le_mul_right _ h
    rw [Nat.add_mul] at hstep
    exact iff_of_false (by omega) (by omega)

end

end Numeral

end GenieAcs
