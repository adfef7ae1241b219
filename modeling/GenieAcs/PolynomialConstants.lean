import Mathlib.Algebra.Field.Rat
import Mathlib.Data.Nat.Prime.Basic
import Mathlib.Data.Rat.Lemmas
import GenieAcs.Doubles
import GenieAcs.Lib.Numeral
import GenieAcs.Normalize

/-!
# Constants of polynomials

A constant enters a polynomial through its binary text, the sign being given to the
integer part before the fraction is added, and leaves it as the quotient of two big
integers made doubles. So a negative fraction enters as another number, and a constant
with more than 1023 binary digits behind the point leaves as 0.
-/

namespace GenieAcs

namespace Polynomial

open JsNumber

/-! ## Taking a number apart -/

def binaryDigits (n : ℕ) : JsString := ((Nat.digits 2 n).map ('0'.toNat + ·)).reverse

/-- `BigInt("0b" + digits)`. -/
def binaryValue (digits : JsString) : ℕ := Numeral.value (· - '0'.toNat) 2 digits

/-- `Math.abs(constant).toString(2).split(".", 2)`, the denominator being a power of 2. -/
def binaryParts (constant : ℚ) : JsString × Option JsString :=
  let int := constant.num.natAbs / constant.den
  let digits := binaryDigits (constant.num.natAbs % constant.den)
  (if int = 0 then js "0" else binaryDigits int,
    if constant.den = 1 then none
    else some (List.replicate (Nat.log 2 constant.den - digits.length) '0'.toNat ++ digits))

/-- `fromConstant` from the two parts of the text on. -/
def ofParts (negative : Bool) (int : JsString) (frac : Option JsString) : Polynomial :=
  let numerator : ℤ := binaryValue int
  let numerator := if negative then numerator * -1 else numerator
  match frac with
  | none => [⟨[], numerator, 1⟩]
  | some frac => [⟨[], numerator * 2 ^ frac.length + binaryValue frac, 2 ^ frac.length⟩]

theorem binaryValue_digits (n : ℕ) : binaryValue (binaryDigits n) = n := by
  refine Numeral.value_digits (by norm_num) (fun d _ => ?_) n
  omega

theorem binaryValue_zeros (n : ℕ) (digits : JsString) :
    binaryValue (List.replicate n '0'.toNat ++ digits) = binaryValue digits := by
  have hzero : Numeral.value (· - '0'.toNat) 2 (List.replicate n '0'.toNat) = 0 := by
    refine (Numeral.value_eq_zero (by norm_num)).mpr fun c hc => ?_
    rw [List.eq_of_mem_replicate hc, Nat.sub_self]
  rw [binaryValue, Numeral.value_append, hzero, Nat.zero_mul, Nat.zero_add, binaryValue]

/-- `fromConstant` as it goes through the binary text. -/
def fromConstantText (constant : ℚ) : Polynomial :=
  ofParts (constant < 0) (binaryParts constant).1 (binaryParts constant).2

/-- The parts of the text are the integer part and the fraction. -/
theorem fromConstant_eq_parts {c : ℚ} {k : ℕ} (hden : c.den = 2 ^ k) :
    fromConstant c = fromConstantText c := by
  have hint : binaryValue (binaryParts c).1 = c.num.natAbs / c.den := by
    unfold binaryParts
    simp only
    split_ifs with h
    · rw [h]
      rfl
    · exact binaryValue_digits _
  unfold fromConstantText ofParts
  rw [hint]
  have hparts : (binaryParts c).2 = if c.den = 1 then none
      else some (List.replicate (k - (binaryDigits (c.num.natAbs % c.den)).length) '0'.toNat
        ++ binaryDigits (c.num.natAbs % c.den)) := by
    unfold binaryParts
    rw [hden, Nat.log_pow (by norm_num)]
  have hsign : ∀ int : ℤ, (if c < 0 then -int else int)
      = if decide (c < 0) = true then int * -1 else int := by
    intro int
    by_cases hneg : c < 0 <;> simp [hneg]
  rw [hparts]
  unfold fromConstant
  simp only [hsign]
  by_cases hone : c.den = 1
  · simp only [if_pos hone]
    rfl
  · have hlen : (binaryDigits (c.num.natAbs % c.den)).length ≤ k := by
      rw [binaryDigits, List.length_reverse, List.length_map, Nat.digits_length_le_iff (by norm_num),
        ← hden]
      exact Nat.mod_lt _ c.den_pos
    have hcast : (c.den : ℤ) = 2 ^ k := by exact_mod_cast hden
    simp only [if_neg hone, binaryValue_zeros, binaryValue_digits, List.length_append,
      List.length_replicate, Nat.sub_add_cancel hlen]
    push_cast
    rw [hcast]

/-! ## Printing -/

/-- `BI.toNumber(numerator) / BI.toNumber(denominator)`. -/
def coefficient (t : Term) : JsNumber :=
  JsNumber.div (double t.coefficientNumerator) (double t.coefficientDenominator)

def factorText (J : Js) (kw : Expr × ℤ) : List JsString :=
  List.replicate kw.2.natAbs
    (if 0 < kw.2 then json J kw.1 else js "[\"/\",1," ++ json J kw.1 ++ js "]")

def termText (J : Js) (t : Term) : JsString :=
  match t.indeterminates with
  | [] => (coefficient t).toText
  | is =>
      let mul := is.flatMap (factorText J)
      let mul := if coefficient t ≠ ofRat 1 then mul ++ [(coefficient t).toText] else mul
      if 1 < mul.length then js "[\"*\"," ++ (js ",").intercalate mul ++ js "]" else mul.headD []

/-- `toString`. -/
def toText (J : Js) (p : Polynomial) : JsString :=
  match p.map (termText J) with
  | [] => js "0"
  | [t] => t
  | add => js "[\"+\"," ++ (js ",").intercalate add ++ js "]"

/-! ## Doubles as constants -/

variable {c : ℚ}

/-- The denominator of a double is a power of 2, and a fraction has a numerator below
`2 ^ 53`. -/
theorem double_fraction (hc : IsDouble c) :
    ∃ k, c.den = 2 ^ k ∧ (c.den = 1 ∨ |c.num| < 2 ^ 53) := by
  obtain ⟨m, e, hm, -, -, hq⟩ := hc
  rcases le_or_gt 0 e with he | he
  · obtain ⟨n, rfl⟩ := Int.eq_ofNat_of_zero_le he
    have hint : c = (m * 2 ^ n : ℤ) := by
      rw [hq]
      push_cast
      rfl
    have hden : c.den = 1 := by
      rw [hint]
      exact Rat.den_intCast _
    exact ⟨0, hden, Or.inl hden⟩
  · obtain ⟨n, rfl⟩ : ∃ n : ℕ, e = -n := ⟨e.natAbs, by omega⟩
    have hfrac : c = (m : ℚ) / ((2 ^ n : ℤ) : ℚ) := by
      rw [hq, zpow_neg, zpow_natCast, ← div_eq_mul_inv]
      push_cast
      rfl
    have hdvd : c.den ∣ 2 ^ n := by
      have h := Rat.den_dvd m (2 ^ n)
      rw [Rat.divInt_eq_div, ← hfrac] at h
      exact_mod_cast h
    obtain ⟨k, -, hden⟩ := (Nat.dvd_prime_pow Nat.prime_two).mp hdvd
    refine ⟨k, hden, ?_⟩
    rcases eq_or_ne m 0 with rfl | hm0
    · left
      rw [hfrac]
      simp
    · right
      have hnum : c.num ∣ m := by
        have h := Rat.num_dvd m (b := 2 ^ n) (by positivity)
        rwa [Rat.divInt_eq_div, ← hfrac] at h
      have hle := Int.natAbs_le_of_dvd_ne_zero hnum hm0
      rw [Int.abs_eq_natAbs] at hm ⊢
      omega

/-- The parts of a double that is not a small fraction are doubles. -/
theorem parts_isDouble (hc : IsDouble c) (hden : c.den < 2 ^ 1024) :
    IsDouble c.num ∧ IsDouble c.den := by
  obtain ⟨k, hk, hnum⟩ := double_fraction hc
  constructor
  · rcases hnum with hone | hnum
    · have hself : (c.num : ℚ) = c := Rat.coe_int_num_of_den_eq_one hone
      rw [hself]
      exact hc
    · refine ⟨c.num, 0, hnum, by norm_num, by norm_num, ?_⟩
      rw [zpow_zero, mul_one]
  · have hlt : k < 1024 := by
      rw [hk] at hden
      exact (pow_lt_pow_iff_right₀ Nat.one_lt_two).mp hden
    rcases le_or_gt k 971 with hle | hgt
    · refine ⟨1, k, by norm_num, by omega, by omega, ?_⟩
      rw [hk, zpow_natCast]
      simp
    · refine ⟨2 ^ (k - 971), 971, ?_, by norm_num, by norm_num, ?_⟩
      · rw [abs_of_pos (by positivity)]
        exact pow_lt_pow_right₀ (by norm_num) (by omega)
      · have hpow : (2 : ℚ) ^ (971 : ℤ) = 2 ^ 971 := zpow_natCast 2 971
        rw [hk, hpow]
        push_cast
        rw [← pow_add, Nat.sub_add_cancel hgt.le]

/-- A constant that is held as numerator and denominator. -/
theorem fromConstant_eq (hsign : 0 ≤ c ∨ c.den = 1) : fromConstant c = [⟨[], c.num, c.den⟩] := by
  unfold fromConstant
  simp only
  rcases hsign with hpos | hone
  · have hnum : 0 ≤ c.num := Rat.num_nonneg.mpr hpos
    rw [if_neg (not_lt.mpr hpos)]
    split_ifs with hone
    · simp [hone, abs_of_nonneg hnum]
    · have hdiv := Int.mul_ediv_add_emod c.num c.den
      rw [Int.natAbs_of_nonneg hnum, mul_comm, hdiv]
  · rw [if_pos hone]
    have hint : (if c < 0 then -((c.num.natAbs : ℤ) / c.den) else (c.num.natAbs : ℤ) / c.den)
        = c.num := by
      rw [hone, Nat.cast_one, Int.ediv_one]
      split_ifs with hneg
      · have hlt : c.num < 0 := Rat.num_neg.mpr hneg
        omega
      · have hle : 0 ≤ c.num := Rat.num_nonneg.mpr (not_lt.mp hneg)
        omega
    rw [hint, hone, Nat.cast_one]

/-- The fraction of a negative number makes it greater. -/
theorem fromConstant_negative (hneg : c < 0) (hden : c.den ≠ 1) :
    ∃ n : ℤ, fromConstant c = [⟨[], n, c.den⟩] ∧ (c.num : ℚ) < n := by
  refine ⟨-((c.num.natAbs : ℤ) / c.den) * c.den + c.num.natAbs % c.den, ?_, ?_⟩
  · unfold fromConstant
    rw [if_neg hden, if_pos hneg]
  · have hpos : 0 < c.num.natAbs % c.den := by
      refine Nat.pos_of_ne_zero fun hzero => hden ?_
      have hdvd : c.den ∣ c.num.natAbs := Nat.dvd_of_mod_eq_zero hzero
      exact Nat.Coprime.eq_one_of_dvd c.reduced.symm hdvd
    have hlt : c.num < 0 := Rat.num_neg.mpr hneg
    have hdiv := Int.mul_ediv_add_emod (c.num.natAbs : ℤ) c.den
    have hcast : ((c.num.natAbs % c.den : ℕ) : ℤ) = (c.num.natAbs : ℤ) % c.den :=
      Int.natCast_emod _ _
    have hgoal : c.num < -((c.num.natAbs : ℤ) / c.den) * c.den + c.num.natAbs % c.den := by
      rw [neg_mul, mul_comm]
      omega
    exact_mod_cast hgoal

/-! ## Constants out of the normaliser -/

/-- The text of a constant is the text of its quotient in doubles. -/
theorem toText_constant (J : Js) (n d : ℤ) :
    toText J [⟨[], n, d⟩] = (JsNumber.div (double n) (double d)).toText := rfl

theorem div_parts (hc : IsDouble c) (hden : c.den < 2 ^ 1024) :
    JsNumber.div (double c.num) (double c.den) = ofRat c := by
  obtain ⟨hnum, hpow⟩ := parts_isDouble hc hden
  have hne : (c.den : ℚ) ≠ 0 := Nat.cast_ne_zero.mpr c.den_nz
  rw [double_eq hnum, double_eq hpow]
  unfold JsNumber.div ofRat
  simp only
  rw [if_neg hne, Rat.num_div_den, double_eq hc]
  rfl

/-- A denominator from `2 ^ 1024` on is infinite as a double. -/
theorem div_small (hc : IsDouble c) (hden : 2 ^ 1024 ≤ c.den) :
    JsNumber.div (double c.num) (double c.den) = ofRat 0 := by
  obtain ⟨k, hk, hnum⟩ := double_fraction hc
  have hle : 1024 ≤ k := by
    rw [hk] at hden
    exact (pow_le_pow_iff_right₀ Nat.one_lt_two).mp hden
  have hsmall : |c.num| < 2 ^ 53 := by
    refine hnum.resolve_left fun hone => ?_
    rw [hone] at hden
    exact absurd hden (by norm_num)
  have hint : IsDouble c.num :=
    ⟨c.num, 0, hsmall, by norm_num, by norm_num, by rw [zpow_zero, mul_one]⟩
  have htop : double (c.den : ℚ) = some ⊤ := by
    rw [hk]
    push_cast
    exact double_pow hle
  rw [double_eq hint, htop]
  rfl

/-- A double is kept, and printed again, unless it is a negative fraction or has more than
1023 binary digits behind the point. -/
theorem constant_kept_iff (J : Js) (hc : IsDouble c) :
    ((∃ n d : ℤ, fromConstantText c = [⟨[], n, d⟩] ∧ (n : ℚ) / d = c)
        ∧ toText J (fromConstantText c) = (ofRat c).toText)
      ↔ (0 ≤ c ∨ c.den = 1) ∧ c.den < 2 ^ 1024 := by
  obtain ⟨k, hk, -⟩ := double_fraction hc
  rw [← fromConstant_eq_parts hk]
  constructor
  · rintro ⟨⟨n, d, hparts, hquot⟩, htext⟩
    have hsign : 0 ≤ c ∨ c.den = 1 := by
      by_contra hbad
      obtain ⟨hneg, hden⟩ := not_or.mp hbad
      obtain ⟨n', hparts', hlt⟩ := fromConstant_negative (not_le.mp hneg) hden
      obtain ⟨rfl, rfl⟩ : n' = n ∧ (c.den : ℤ) = d := by
        rw [hparts'] at hparts
        injection hparts with hterm
        injection hterm with _ hn hd
        exact ⟨hn, hd⟩
      have hpos : (0 : ℚ) < c.den := Nat.cast_pos.mpr c.den_pos
      have heq : (n' : ℚ) = c.num := by
        rw [Int.cast_natCast, div_eq_iff hpos.ne'] at hquot
        rw [hquot, Rat.mul_den_eq_num]
      exact absurd hlt (by rw [heq]; exact lt_irrefl _)
    refine ⟨hsign, not_le.mp fun hden => ?_⟩
    rw [fromConstant_eq hsign, toText_constant, Int.cast_natCast, div_small hc hden] at htext
    refine numberText_ne_zero (fun hzero => ?_) htext.symm
    rw [hzero] at hden
    exact absurd hden (by norm_num)
  · rintro ⟨hsign, hden⟩
    rw [fromConstant_eq hsign]
    refine ⟨⟨c.num, c.den, rfl, ?_⟩, ?_⟩
    · rw [Int.cast_natCast, Rat.num_div_den]
    · rw [toText_constant, Int.cast_natCast, div_parts hc hden]

theorem constant_kept_three_halves :
    ((∃ n d : ℤ, fromConstantText (3 / 2) = [⟨[], n, d⟩] ∧ (n : ℚ) / d = 3 / 2)
        ∧ toText idleJs (fromConstantText (3 / 2)) = (ofRat (3 / 2)).toText)
      ↔ ((0 : ℚ) ≤ 3 / 2 ∨ (3 / 2 : ℚ).den = 1) ∧ (3 / 2 : ℚ).den < 2 ^ 1024 :=
  constant_kept_iff idleJs ⟨3, -1, by norm_num, by norm_num, by norm_num, by norm_num⟩

/-- `-1.5` is held as `-1 / 2`. -/
theorem minus_three_halves_lost :
    IsDouble (-3 / 2) ∧ fromConstantText (-3 / 2) = [⟨[], -1, 2⟩]
      ∧ ¬ ∃ n d : ℤ, fromConstantText (-3 / 2) = [⟨[], n, d⟩] ∧ (n : ℚ) / d = -3 / 2 := by
  have hfrac : (-3 / 2 : ℚ) = (-3 : ℤ) / (2 : ℤ) := by norm_num
  have hnum : (-3 / 2 : ℚ).num = -3 := by
    rw [hfrac]
    exact Rat.num_div_eq_of_coprime (by norm_num) rfl
  have hden : (-3 / 2 : ℚ).den = 2 := by
    have h := Rat.den_div_eq_of_coprime (a := -3) (b := 2) (by norm_num) rfl
    rw [hfrac]
    exact_mod_cast h
  have hheld : fromConstantText (-3 / 2) = [⟨[], -1, 2⟩] := by
    rw [← fromConstant_eq_parts (k := 1) hden]
    unfold fromConstant
    have hneg : (-3 / 2 : ℚ) < 0 := by norm_num
    simp only [hnum, hden, if_pos hneg]
    rfl
  refine ⟨⟨-3, -1, by norm_num, by norm_num, by norm_num, by norm_num⟩, hheld, ?_⟩
  rintro ⟨n, d, hparts, hquot⟩
  rw [hheld] at hparts
  injection hparts with hterm
  injection hterm with _ hn hd
  rw [← hn, ← hd] at hquot
  norm_num at hquot

end Polynomial

end GenieAcs
