import Mathlib.Data.BitVec
import Mathlib.Tactic.Common

/-!
# Sets of positions as 32-bit integers

The bit operators of ECMAScript work on 32-bit integers and take shift counts
modulo 32, and `>>` keeps the sign. A mask holds a set of positions of a list;
`Mask.drop` takes one position out and moves the later ones down by one. As
long as the sign bit is clear these operations do what they do on sets.
-/

namespace GenieAcs

abbrev Mask := BitVec 32

namespace Mask

/-- `m << n`. -/
def shl (m : Mask) (n : Nat) : Mask := m <<< (n % 32)

/-- `m >> n`. -/
def sar (m : Mask) (n : Nat) : Mask := m.sshiftRight (n % 32)

/-- `1 << n`. -/
def bit (n : Nat) : Mask := shl 1 n

/-- `m & (1 << n)` is not zero. -/
def has (m : Mask) (n : Nat) : Bool := decide (m &&& bit n ≠ 0)

/-- `(m >> n) & 1` is not zero. -/
def test (m : Mask) (n : Nat) : Bool := decide (sar m n &&& 1 ≠ 0)

/-- `m & ((1 << j) - 1) | (m >> (j + 1)) << j`. -/
def drop (m : Mask) (j : Nat) : Mask := (m &&& (bit j - 1)) ||| shl (sar m (j + 1)) j

variable {m : Mask} {n j i : Nat}

theorem getLsbD_bit (hn : n < 32) : (bit n).getLsbD i = decide (i = n) := by
  rw [bit, shl, Nat.mod_eq_of_lt hn]
  by_cases hi : i < 32
  · have hone : ∀ k, (1 : Mask).getLsbD k = decide (k = 0) := fun k => by
      simp [BitVec.getLsbD_one]
    rw [BitVec.getLsbD_shiftLeft, hone]
    by_cases h : i < n
    · simp [hi, h, h.ne]
    · have hdiff : i - n = 0 ↔ i = n := by omega
      simp [hi, h, hdiff]
  · rw [BitVec.getLsbD_of_ge _ _ (by omega)]
    have hne : i ≠ n := by omega
    simp [hne]

theorem has_eq (hn : n < 32) : has m n = m.getLsbD n := by
  have hone : m &&& bit n ≠ 0 ↔ m.getLsbD n = true := by
    constructor
    · intro h
      by_contra hno
      refine h (BitVec.eq_of_getLsbD_eq fun i hi => ?_)
      rw [BitVec.getLsbD_and, getLsbD_bit hn]
      by_cases hin : i = n
      · subst hin
        simp [hno]
      · simp [hin]
    · intro h hzero
      have hbit := congrArg (fun x : Mask => x.getLsbD n) hzero
      simp [getLsbD_bit hn, h] at hbit
  rw [has, Bool.eq_iff_iff, decide_eq_true_iff, hone]

theorem test_eq (hn : n < 32) : test m n = m.getLsbD n := by
  have hone : bit 0 = 1 := rfl
  have hzero : sar m n &&& 1 ≠ 0 ↔ (sar m n).getLsbD 0 = true := by
    have h := @has_eq (sar m n) 0 (by omega)
    rw [has, Bool.eq_iff_iff, decide_eq_true_iff, hone] at h
    exact h
  rw [test, Bool.eq_iff_iff, decide_eq_true_iff, hzero, sar, Nat.mod_eq_of_lt hn,
    BitVec.getLsbD_sshiftRight]
  simp [hn]

/-- Shift counts are taken modulo 32. -/
theorem bit_mod : bit (n % 32) = bit n := by
  rw [bit, bit, shl, shl, Nat.mod_mod]

theorem test_mod : test m n = m.getLsbD (n % 32) := by
  rw [← test_eq (Nat.mod_lt n (by omega)), test, test, sar, sar, Nat.mod_mod]

theorem getLsbD_or_bit (hn : n < 32) :
    (m ||| bit n).getLsbD i = (m.getLsbD i || decide (i = n)) := by
  rw [BitVec.getLsbD_or, getLsbD_bit hn]

theorem toNat_bit (hn : n < 32) : (bit n).toNat = 2 ^ n := by
  have hlt : 2 ^ n < 2 ^ 32 := Nat.pow_lt_pow_right (by omega) hn
  rw [bit, shl, Nat.mod_eq_of_lt hn, BitVec.toNat_shiftLeft]
  change (1 <<< n) % 2 ^ 32 = 2 ^ n
  rw [Nat.one_shiftLeft, Nat.mod_eq_of_lt hlt]

/-- `(1 << j) - 1` has the positions below `j`. -/
theorem getLsbD_below (hj : j < 32) : (bit j - 1).getLsbD i = decide (i < j) := by
  have hle : (1 : Mask) ≤ bit j := by
    rw [BitVec.le_def, toNat_bit hj]
    exact Nat.one_le_two_pow
  have hsub : (bit j - 1).toNat = 2 ^ j - 1 := by
    rw [BitVec.toNat_sub_of_le hle, toNat_bit hj]
    rfl
  rw [← BitVec.testBit_toNat, hsub, Nat.testBit_two_pow_sub_one]

@[simp]
theorem drop_zero : drop 0 j = 0 := by
  simp [drop, sar, shl]

/-- What `drop` leaves at a position: the sign bit stays, and with `j = 31` the
shift count is 0 and the first position comes out last. -/
theorem getLsbD_drop (hj : j < 32) :
    (drop m j).getLsbD i
      = if i < j then m.getLsbD i
        else if i < 31 then m.getLsbD (i + 1)
        else decide (i = 31) && m.getLsbD (if j = 31 then 0 else 31) := by
  rw [drop, BitVec.getLsbD_or, BitVec.getLsbD_and, getLsbD_below hj, shl, sar,
    Nat.mod_eq_of_lt hj, BitVec.getLsbD_shiftLeft, BitVec.getLsbD_sshiftRight]
  by_cases hij : i < j
  · simp [hij]
  rw [if_neg hij]
  rcases Nat.lt_trichotomy i 31 with hi | rfl | hi
  · have hmod : (j + 1) % 32 = j + 1 := Nat.mod_eq_of_lt (by omega)
    have hsum : j + 1 + (i - j) = i + 1 := by omega
    have h32 : i < 32 := by omega
    have hge : ¬ 32 ≤ i - j := by omega
    have hlt : i + 1 < 32 := by omega
    simp [hij, hi, h32, hmod, hsum, hge, hlt]
  · by_cases hlast : j = 31
    · subst hlast
      simp
    · have hmod : (j + 1) % 32 = j + 1 := Nat.mod_eq_of_lt (by omega)
      have hge : ¬ j + 1 + (31 - j) < 32 := by omega
      have hsub : ¬ 32 ≤ 31 - j := by omega
      simp [hij, hlast, hmod, hge, hsub, BitVec.msb_eq_getLsbD_last]
  · have hne : i ≠ 31 := by omega
    have h31 : ¬ i < 31 := by omega
    have h32 : ¬ i < 32 := by omega
    simp [hij, hne, h31, h32]

end Mask

end GenieAcs
