import Mathlib.Algebra.Order.Field.Power
import Mathlib.Data.Nat.Digits.Lemmas
import GenieAcs.JsNumbers

/-!
# Doubles

The finite doubles are the numbers that rounding leaves alone (`double_eq`). A number is
printed with the fewest decimal digits that are read as the number again.
-/

namespace GenieAcs

namespace JsNumber

/-- The finite doubles. -/
def IsDouble (c : ℚ) : Prop :=
  ∃ m e : ℤ, |m| < 2 ^ 53 ∧ -1074 ≤ e ∧ e ≤ 971 ∧ c = m * 2 ^ e

/-- Division. -/
def div : JsNumber → JsNumber → JsNumber
  | some (some (some p)), some (some (some q)) =>
      if q = 0 then (if p = 0 then none else if 0 < p then some ⊤ else some ⊥) else double (p / q)
  | some (some (some _)), some _ => ofRat 0
  | some ⊤, some (some (some q)) => if q < 0 then some ⊥ else some ⊤
  | some ⊥, some (some (some q)) => if q < 0 then some ⊤ else some ⊥
  | _, _ => none

/-- `x <= y`. -/
def le : JsNumber → JsNumber → Bool
  | some x, some y => decide (x ≤ y)
  | _, _ => false

def add : JsNumber → JsNumber → JsNumber
  | some (some (some p)), some (some (some q)) => double (p + q)
  | some ⊤, some ⊥ => none
  | some ⊥, some ⊤ => none
  | some ⊤, some _ => some ⊤
  | some ⊥, some _ => some ⊥
  | some _, some y => some y
  | _, _ => none

def neg : JsNumber → JsNumber
  | none => none
  | some ⊤ => some ⊥
  | some ⊥ => some ⊤
  | some (some (some q)) => ofRat (-q)

def sub (x y : JsNumber) : JsNumber := add x (neg y)

/-! ## Printing -/

/-- `n`, `s` and `k` of `Number::toString`: `s` has `k` digits, and the number is the double
nearest to `s * 10 ^ (n - k)`. -/
structure Decimal where
  n : ℤ
  s : ℕ
  k : ℕ

/-- The nearest number with `k` digits. -/
def withDigits (q : ℚ) (k : ℕ) : Decimal :=
  let n := Int.log 10 q + 1
  let s := (roundEven (q / 10 ^ (n - k))).toNat
  if s = 10 ^ k then ⟨n + 1, 1, 1⟩ else ⟨n, s, k⟩

/-- As few digits as are read as the number again; 17 always are. -/
def shortest (q : ℚ) : Decimal :=
  let candidates := (List.range 16).map fun k => withDigits q (k + 1)
  (candidates.find? fun d => double ((d.s : ℚ) * 10 ^ (d.n - (d.k : ℤ))) = ofRat q).getD
    (withDigits q 17)

def decimalDigits (s : ℕ) : JsString := ((Nat.digits 10 s).map ('0'.toNat + ·)).reverse

/-- The text of a positive number. -/
def decimalText (d : Decimal) : JsString :=
  let digits := decimalDigits d.s
  if d.k ≤ d.n ∧ d.n ≤ 21 then digits ++ List.replicate (d.n - d.k).toNat '0'.toNat
  else if 0 < d.n ∧ d.n ≤ 21 then digits.take d.n.toNat ++ js "." ++ digits.drop d.n.toNat
  else if -6 < d.n ∧ d.n ≤ 0 then js "0." ++ List.replicate (-d.n).toNat '0'.toNat ++ digits
  else
    (if d.k = 1 then digits else digits.take 1 ++ js "." ++ digits.drop 1)
      ++ js "e" ++ (if d.n - 1 < 0 then js "-" else js "+") ++ decimalDigits (d.n - 1).natAbs

/-- `Number::toString`. -/
def numberText (q : ℚ) : JsString :=
  if q = 0 then js "0"
  else if q < 0 then js "-" ++ decimalText (shortest (-q))
  else decimalText (shortest q)

def toText : JsNumber → JsString
  | none => js "NaN"
  | some ⊤ => js "Infinity"
  | some ⊥ => js "-Infinity"
  | some (some (some q)) => numberText q

/-! ## Rounding a double -/

theorem roundEven_int (z : ℤ) : roundEven z = z := by
  rw [roundEven, Int.floor_intCast, sub_self, if_pos (Or.inl (by norm_num))]

theorem ulp_pos (q : ℚ) : 0 < ulp q := zpow_pos (by norm_num) _

/-- A multiple of its distance to the next double is not rounded. -/
theorem rounded_eq {q : ℚ} {z : ℤ} (h : q = z * ulp q) :
    (if q = 0 then 0 else (roundEven (q / ulp q) : ℚ) * ulp q) = q := by
  by_cases hq : q = 0
  · rw [if_pos hq, hq]
  · have hdiv : q / ulp q = z := by
      rw [div_eq_iff (ulp_pos q).ne']
      exact h
    rw [if_neg hq, hdiv, roundEven_int, ← h]

/-- A number with at most 53 binary digits is such a multiple. -/
theorem exists_ulp {q : ℚ} {m e : ℤ} (hm : |m| < 2 ^ 53) (he : -1074 ≤ e) (hq : q = m * 2 ^ e) :
    ∃ z : ℤ, q = z * ulp q := by
  by_cases hzero : m = 0
  · refine ⟨0, ?_⟩
    rw [hq, hzero]
    simp
  · have hpos : 0 < |q| := by
      rw [hq]
      exact abs_pos.mpr (mul_ne_zero (Int.cast_ne_zero.mpr hzero) (zpow_pos (by norm_num) _).ne')
    have habs : |q| < 2 ^ (53 + e) := by
      rw [hq, abs_mul, abs_of_pos (zpow_pos (by norm_num : (0 : ℚ) < 2) e), zpow_add₀ (by norm_num)]
      refine mul_lt_mul_of_pos_right ?_ (zpow_pos (by norm_num) _)
      exact_mod_cast hm
    have hlog : Int.log 2 |q| < 53 + e := by
      have h := Int.lt_zpow_iff_log_lt (b := 2) (by norm_num) (x := 53 + e) hpos
      exact h.mp (by exact_mod_cast habs)
    have hle : max (Int.log 2 |q| - 52) (-1074) ≤ e := max_le (by omega) he
    refine ⟨m * 2 ^ (e - max (Int.log 2 |q| - 52) (-1074)).toNat, ?_⟩
    have hpow : (2 : ℚ) ^ e = 2 ^ (e - max (Int.log 2 |q| - 52) (-1074)).toNat * ulp q := by
      rw [ulp, ← zpow_natCast, ← zpow_add₀ (by norm_num), Int.toNat_of_nonneg (by omega)]
      congr 1
      omega
    calc q = m * 2 ^ e := hq
      _ = (m * 2 ^ (e - max (Int.log 2 |q| - 52) (-1074)).toNat : ℤ) * ulp q := by
        rw [hpow]
        push_cast
        ring

theorem double_eq {c : ℚ} (hc : IsDouble c) : double c = ofRat c := by
  obtain ⟨m, e, hm, he, he', hq⟩ := hc
  obtain ⟨z, hz⟩ := exists_ulp hm he hq
  have hbound : |c| < 2 ^ 1024 := by
    have hpow : (2 : ℚ) ^ e ≤ 2 ^ (971 : ℤ) := zpow_le_zpow_right₀ (by norm_num) he'
    have hm' : |(m : ℚ)| < 2 ^ 53 := by exact_mod_cast hm
    rw [hq, abs_mul, abs_of_pos (zpow_pos (by norm_num : (0 : ℚ) < 2) e)]
    calc |(m : ℚ)| * 2 ^ e ≤ |(m : ℚ)| * 2 ^ (971 : ℤ) :=
          mul_le_mul_of_nonneg_left hpow (abs_nonneg _)
      _ < 2 ^ 53 * 2 ^ (971 : ℤ) := mul_lt_mul_of_pos_right hm' (zpow_pos (by norm_num) _)
      _ = 2 ^ 1024 := by rw [← Nat.cast_ofNat (R := ℤ), zpow_natCast, ← pow_add]
  obtain ⟨hlow, hhigh⟩ := abs_lt.mp hbound
  rw [double]
  simp only [rounded_eq hz]
  rw [if_neg (not_le.mpr hhigh), if_neg (not_le.mpr hlow)]

/-- A power of 2 from `2 ^ 1024` on is rounded to infinity. -/
theorem double_pow {k : ℕ} (hk : 1024 ≤ k) : double (2 ^ k) = some ⊤ := by
  have hq : (2 ^ k : ℚ) = (1 : ℤ) * 2 ^ (k : ℤ) := by
    rw [zpow_natCast]
    simp
  obtain ⟨z, hz⟩ := exists_ulp (m := 1) (by norm_num) (by omega) hq
  rw [double]
  simp only [rounded_eq hz]
  exact if_pos (pow_le_pow_right₀ (by norm_num) hk)

/-! ## The text of a number other than 0 -/

theorem one_le_roundEven {q : ℚ} (hq : 1 ≤ q) : 1 ≤ roundEven q := by
  have hfloor : 1 ≤ ⌊q⌋ := Int.le_floor.mpr (by exact_mod_cast hq)
  unfold roundEven
  split_ifs <;> omega

theorem withDigits_pos {q : ℚ} (hq : 0 < q) {k : ℕ} (hk : 0 < k) : 0 < (withDigits q k).s := by
  have hlow : (10 : ℚ) ^ Int.log 10 q ≤ q := by
    exact_mod_cast Int.zpow_log_le_self (by norm_num) hq
  have hone : 1 ≤ q / 10 ^ (Int.log 10 q + 1 - (k : ℤ)) := by
    rw [one_le_div (zpow_pos (by norm_num) _)]
    exact (zpow_le_zpow_right₀ (by norm_num) (by omega)).trans hlow
  have hround := one_le_roundEven hone
  unfold withDigits
  simp only
  split_ifs
  · exact Nat.one_pos
  · exact Int.lt_toNat.mpr hround

theorem shortest_pos {q : ℚ} (hq : 0 < q) : 0 < (shortest q).s := by
  unfold shortest
  simp only
  cases hfind : ((List.range 16).map fun k => withDigits q (k + 1)).find?
      fun d => double ((d.s : ℚ) * 10 ^ (d.n - (d.k : ℤ))) = ofRat q with
  | none => exact withDigits_pos hq (by norm_num)
  | some d =>
      obtain ⟨k, -, rfl⟩ := List.mem_map.mp (List.mem_of_find?_eq_some hfind)
      exact withDigits_pos hq (Nat.succ_pos k)

/-- The first digit of a positive number is not 0. -/
theorem head_decimalDigits {s : ℕ} (hs : 0 < s) :
    ∃ d r, decimalDigits s = d :: r ∧ d ≠ '0'.toNat := by
  have hne : Nat.digits 10 s ≠ [] := Nat.digits_ne_nil_iff_ne_zero.mpr hs.ne'
  have hlast := Nat.getLast_digit_ne_zero 10 hs.ne'
  refine ⟨'0'.toNat + (Nat.digits 10 s).getLast hne,
    (((Nat.digits 10 s).dropLast).map ('0'.toNat + ·)).reverse, ?_, ?_⟩
  · conv_lhs => rw [decimalDigits, ← List.dropLast_append_getLast hne]
    simp
  · omega

theorem decimalText_ne {d : Decimal} (hs : 0 < d.s) : decimalText d ≠ js "0" := by
  obtain ⟨c, r, hdigits, hc⟩ := head_decimalDigits hs
  have hmem : ∀ {t : JsString} {x : Nat}, x ∈ t → x ≠ '0'.toNat → t ≠ js "0" := by
    rintro t x hx hne rfl
    exact hne (List.mem_singleton.mp hx)
  unfold decimalText
  simp only [hdigits]
  split_ifs
  · exact hmem List.mem_cons_self hc
  · exact hmem (List.mem_append_left _ (List.mem_append_right _ (List.mem_singleton_self _)))
      (by decide)
  · exact hmem (List.mem_append_left _ (List.mem_append_left _
      (List.mem_cons_of_mem _ (List.mem_singleton_self _)))) (by decide)
  all_goals
    refine hmem (List.mem_append_left _ (List.mem_append_left _
      (List.mem_append_right _ (List.mem_singleton_self _)))) (by decide)

theorem numberText_ne_zero {q : ℚ} (hq : q ≠ 0) : numberText q ≠ numberText 0 := by
  rw [numberText, if_neg hq, numberText, if_pos rfl]
  split_ifs with hneg
  · intro h
    exact absurd (List.cons.inj h).1 (by decide)
  · exact decimalText_ne (shortest_pos (lt_of_le_of_ne (not_lt.mp hneg) hq.symm))

/-! ## The text of a natural number -/

theorem ofRat_inj {p q : ℚ} (h : ofRat p = ofRat q) : p = q := by
  simpa [ofRat] using h

theorem double_nat {n : ℕ} (h : n < 2 ^ 53) : double n = ofRat n := by
  refine double_eq ⟨n, 0, ?_, by norm_num, by norm_num, by simp⟩
  rw [abs_of_nonneg (Int.natCast_nonneg n)]
  exact_mod_cast h

theorem roundEven_le (q : ℚ) : (roundEven q : ℚ) ≤ q + 1 := by
  have hfloor := Int.floor_le q
  unfold roundEven
  split_ifs
  · linarith
  · push_cast
    linarith

theorem decimalDigits_mul_pow {s : ℕ} (hs : 0 < s) (j : ℕ) :
    decimalDigits (s * 10 ^ j) = decimalDigits s ++ List.replicate j '0'.toNat := by
  rw [decimalDigits, decimalDigits, Nat.mul_comm, Nat.digits_base_pow_mul (by norm_num) hs,
    List.map_append, List.reverse_append, List.map_replicate, List.reverse_replicate, Nat.add_zero]

/-- As many digits as the number has tell it apart. -/
theorem withDigits_log (n : ℕ) :
    withDigits n (Nat.log 10 n + 1) = ⟨(Nat.log 10 n + 1 : ℕ), n, Nat.log 10 n + 1⟩ := by
  have hlt : n < 10 ^ (Nat.log 10 n + 1) := Nat.lt_pow_succ_log_self (by norm_num) n
  rw [withDigits]
  simp only [Int.log_natCast]
  push_cast
  rw [sub_self, zpow_zero, div_one]
  have hround : roundEven n = n := by exact_mod_cast roundEven_int n
  simp only [hround, Int.toNat_natCast]
  rw [if_neg hlt.ne]

/-- A text with fewer digits that is read as the number has its digits, but for zeros. -/
theorem decimalText_withDigits {n k : ℕ} (hn : 0 < n) (hbound : n < 10 ^ 15) (hk : 0 < k)
    (hle : k ≤ Nat.log 10 n + 1)
    (h : double ((withDigits n k).s * 10 ^ ((withDigits n k).n - ((withDigits n k).k : ℤ))) = ofRat n) :
    decimalText (withDigits n k) = decimalDigits n := by
  set D := Nat.log 10 n + 1 with hD
  have hlog : Nat.log 10 n < 15 := Nat.log_lt_of_lt_pow hn.ne' hbound
  have hlt : n < 10 ^ D := Nat.lt_pow_succ_log_self (by norm_num) n
  have hpow : 10 ^ D ≤ 10 ^ 15 := Nat.pow_le_pow_right (by norm_num) (by omega)
  have hpos : 0 < (withDigits n k).s := withDigits_pos (by exact_mod_cast hn) hk
  have hwith : withDigits n k = (if (roundEven ((n : ℚ) / 10 ^ (D - k))).toNat = 10 ^ k then ⟨D + 1, 1, 1⟩
      else ⟨D, (roundEven ((n : ℚ) / 10 ^ (D - k))).toNat, k⟩) := by
    rw [withDigits]
    simp only [Int.log_natCast]
    have hsub : ((Nat.log 10 n : ℤ) + 1 - (k : ℤ)) = ((D - k : ℕ) : ℤ) := by omega
    rw [hsub, zpow_natCast]
    push_cast [hD]
    rfl
  set s := (roundEven ((n : ℚ) / 10 ^ (D - k))).toNat with hs
  rw [hwith] at h hpos ⊢
  split_ifs at h hpos ⊢ with hcarry
  · -- a power of ten that the number does not reach
    have hten : ((1 : ℕ) : ℚ) * 10 ^ ((D : ℤ) + 1 - ((1 : ℕ) : ℤ)) = ((10 ^ D : ℕ) : ℚ) := by
      rw [Nat.cast_one, one_mul, Int.natCast_one, add_sub_cancel_right, zpow_natCast]
      push_cast
      rfl
    dsimp only at h
    rw [hten, double_nat (hpow.trans_lt (by norm_num))] at h
    have heq : (10 ^ D : ℕ) = n := by exact_mod_cast ofRat_inj h
    omega
  · dsimp only at h hpos
    have hnat : (s : ℚ) * 10 ^ ((D : ℤ) - (k : ℤ)) = ((s * 10 ^ (D - k) : ℕ) : ℚ) := by
      have hsub : (D : ℤ) - (k : ℤ) = ((D - k : ℕ) : ℤ) := by omega
      rw [hsub, zpow_natCast]
      push_cast
      rfl
    have hsmall : s * 10 ^ (D - k) < 2 ^ 53 := by
      have hround : (s : ℤ) = roundEven ((n : ℚ) / 10 ^ (D - k)) :=
        Int.toNat_of_nonneg (Int.lt_toNat.mp hpos).le
      have hround' : (s : ℚ) = roundEven ((n : ℚ) / 10 ^ (D - k)) := by
        rw [← hround, Int.cast_natCast]
      have hpow' : (0 : ℚ) < 10 ^ (D - k) := by positivity
      have hle' : (s : ℚ) * 10 ^ (D - k) ≤ n + 10 ^ (D - k) := by
        calc (s : ℚ) * 10 ^ (D - k) ≤ ((n : ℚ) / 10 ^ (D - k) + 1) * 10 ^ (D - k) :=
              mul_le_mul_of_nonneg_right (hround' ▸ roundEven_le _) hpow'.le
          _ = n + 10 ^ (D - k) := by rw [add_mul, div_mul_cancel₀ _ hpow'.ne', one_mul]
      have hnat' : s * 10 ^ (D - k) ≤ n + 10 ^ (D - k) := by exact_mod_cast hle'
      have hdrop : 10 ^ (D - k) ≤ 10 ^ D := Nat.pow_le_pow_right (by norm_num) (Nat.sub_le _ _)
      have hsum : n + 10 ^ 15 < 2 ^ 53 := (Nat.add_lt_add_right hbound _).trans (by norm_num)
      omega
    rw [hnat, double_nat hsmall] at h
    have heq : s * 10 ^ (D - k) = n := by exact_mod_cast ofRat_inj h
    rw [decimalText]
    dsimp only
    rw [if_pos ⟨by omega, by omega⟩]
    have hsub : ((D : ℤ) - (k : ℤ)).toNat = D - k := by omega
    rw [hsub, ← decimalDigits_mul_pow hpos, heq]

theorem toText_nat {n : ℕ} (hn : 0 < n) (hbound : n < 10 ^ 15) :
    toText (ofRat n) = decimalDigits n := by
  have hlog : Nat.log 10 n < 15 := Nat.log_lt_of_lt_pow hn.ne' hbound
  have hn' : (0 : ℚ) < n := by exact_mod_cast hn
  set p : Decimal → Bool := fun d => double ((d.s : ℚ) * 10 ^ (d.n - (d.k : ℤ))) = ofRat n with hp
  -- the number itself, with all its digits
  have hall : p (withDigits n (Nat.log 10 n + 1)) = true := by
    rw [hp, withDigits_log]
    simp only [Nat.cast_add, Nat.cast_one, sub_self, zpow_zero, mul_one, decide_eq_true_eq]
    exact double_nat (hbound.trans (by norm_num))
  show numberText n = _
  rw [numberText, if_neg hn'.ne', if_neg hn'.not_gt, shortest]
  cases hfind : ((List.range 16).map fun k => withDigits n (k + 1)).find? p with
  | none =>
      have hno := List.find?_eq_none.mp hfind (withDigits n (Nat.log 10 n + 1))
        (List.mem_map.mpr ⟨Nat.log 10 n, List.mem_range.mpr (by omega), rfl⟩)
      exact absurd hall hno
  | some d =>
      obtain ⟨hd, i, hi, rfl, hfirst⟩ := List.find?_eq_some_iff_getElem.mp hfind
      rw [List.length_map, List.length_range] at hi
      have hle : i ≤ Nat.log 10 n := by
        by_contra hlt
        have hbefore := hfirst (Nat.log 10 n) (not_le.mp hlt)
        rw [List.getElem_map, List.getElem_range, hall] at hbefore
        cases hbefore
      rw [Option.getD_some, List.getElem_map, List.getElem_range]
      rw [List.getElem_map, List.getElem_range] at hd
      exact decimalText_withDigits hn hbound (Nat.succ_pos i) (Nat.succ_le_succ hle)
        (of_decide_eq_true hd)

/-! ## Reading digits -/

theorem isDigit_ten {c : Nat} : isDigit 10 c = true ↔ 48 ≤ c ∧ c ≤ 57 := by
  simp only [isDigit, digitValue, decide_eq_true_eq, Char.reduceToNat]
  split_ifs <;> omega

theorem isDigit_sixteen {c : Nat} :
    isDigit 16 c = true ↔ (48 ≤ c ∧ c ≤ 57) ∨ (97 ≤ c ∧ c ≤ 102) ∨ (65 ≤ c ∧ c ≤ 70) := by
  simp only [isDigit, digitValue, decide_eq_true_eq, Char.reduceToNat]
  split_ifs <;> omega

/-- Digits are neither white space nor a sign, and no letter behind a zero among them names a
radix. -/
theorem digit_unit {c : Nat} (h : isDigit 16 c = true) :
    trimChar c = false ∧ c ≠ '-'.toNat ∧ c ≠ '+'.toNat ∧ c ≠ 'x'.toNat ∧ c ≠ 'X'.toNat := by
  rw [isDigit_sixteen] at h
  simp only [trimChar, Char.reduceToNat, decide_eq_false_iff_not]
  omega

theorem ten_sixteen {c : Nat} (h : isDigit 10 c = true) : isDigit 16 c = true := by
  rw [isDigit_ten] at h
  exact isDigit_sixteen.mpr (Or.inl h)

theorem dropWhile_sign {units : JsString} (hne : units ≠ [])
    (hdigit : ∀ c ∈ units, isDigit 16 c = true) :
    sign (units.dropWhile trimChar) = (1, units) := by
  obtain ⟨c, units, rfl⟩ := List.exists_cons_of_ne_nil hne
  obtain ⟨htrim, hminus, hplus, -⟩ := digit_unit (hdigit c List.mem_cons_self)
  rw [List.dropWhile_cons, htrim]
  show (if c = '-'.toNat then _ else if c = '+'.toNat then _ else _) = _
  rw [if_neg hminus, if_neg hplus]

theorem radixOf_ne {units : JsString} (hdigit : ∀ c ∈ units, isDigit 16 c = true) (s : JsString) :
    radixOf units ≠ some (16, s) := by
  intro h
  match units, hdigit, h with
  | first :: c :: rest, hdigit, h =>
      obtain ⟨-, -, -, hlow, hup⟩ :=
        digit_unit (hdigit c (List.mem_cons_of_mem _ List.mem_cons_self))
      rw [radixOf] at h
      split_ifs at h with _ hx
      · exact hx.elim hlow hup
      · cases h
      · cases h

theorem parseInt_digits {units : JsString} (hne : units ≠ [])
    (hdigit : ∀ c ∈ units, isDigit 10 c = true) :
    parseInt units = double (digitsValue 10 units) := by
  have hsixteen : ∀ c ∈ units, isDigit 16 c = true := fun c hc => ten_sixteen (hdigit c hc)
  have hall : units.takeWhile (isDigit 10) = units := List.takeWhile_eq_self_iff.mpr hdigit
  have hne16 := radixOf_ne hsixteen
  rw [parseInt, dropWhile_sign hne hsixteen]
  dsimp only
  split
  · exact absurd ‹_› (hne16 _)
  · dsimp only
    rw [hall, if_neg hne, Int.cast_one, one_mul]

/-! ## Whole numbers -/

theorem gt_ofRat (p q : ℚ) : gt (ofRat p) (ofRat q) = decide (q < p) := by
  simp [gt, ofRat]

theorem le_ofRat (p q : ℚ) : le (ofRat p) (ofRat q) = decide (p ≤ q) := by
  simp [le, ofRat]

theorem add_ofRat (p q : ℚ) : add (ofRat p) (ofRat q) = double (p + q) := rfl

theorem sub_ofRat (p q : ℚ) : sub (ofRat p) (ofRat q) = double (p - q) := by
  rw [sub_eq_add_neg]
  rfl

/-- The number is beyond the whole numbers that doubles tell apart. -/
def Huge (x : JsNumber) : Prop := x = some ⊤ ∨ ∃ q : ℚ, 2 ^ 53 ≤ q ∧ x = ofRat q

/-- Rounding does not bring a huge number down. -/
theorem double_huge {q : ℚ} (hq : 2 ^ 53 ≤ q) : Huge (double q) := by
  have hpos : 0 < q := lt_of_lt_of_le (by norm_num) hq
  have hlog : (2 : ℚ) ^ Int.log 2 q ≤ q := by
    exact_mod_cast Int.zpow_log_le_self (by norm_num) hpos
  have hlarge : 53 ≤ Int.log 2 q := by
    rw [← Int.zpow_le_iff_le_log (by norm_num) hpos]
    exact_mod_cast hq
  have hulp : ulp q = 2 ^ (Int.log 2 q - 52) := by
    rw [ulp, abs_of_pos hpos, max_eq_left (by omega)]
  have hquot : ((2 ^ 52 : ℤ) : ℚ) ≤ q / ulp q := by
    rw [le_div_iff₀ (ulp_pos q), hulp]
    have hpow : ((2 ^ 52 : ℤ) : ℚ) = 2 ^ (52 : ℤ) := by norm_num
    rw [hpow, ← zpow_add₀ (by norm_num), add_sub_cancel]
    exact hlog
  have hround : (2 ^ 52 : ℤ) ≤ roundEven (q / ulp q) := by
    have hfloor := Int.le_floor.mpr hquot
    unfold roundEven
    split_ifs <;> omega
  have hr : (2 : ℚ) ^ 53 ≤ roundEven (q / ulp q) * ulp q := by
    have hstep : (2 : ℚ) ^ (1 : ℤ) ≤ ulp q := by
      rw [hulp]
      exact zpow_le_zpow_right₀ (by norm_num) (by omega)
    have hcast : ((2 ^ 52 : ℤ) : ℚ) ≤ (roundEven (q / ulp q) : ℚ) := by exact_mod_cast hround
    calc (2 : ℚ) ^ 53 = ((2 ^ 52 : ℤ) : ℚ) * 2 ^ (1 : ℤ) := by norm_num
      _ ≤ roundEven (q / ulp q) * ulp q :=
        mul_le_mul hcast hstep (by norm_num) (le_trans (by norm_num) hcast)
  rw [double]
  simp only [if_neg hpos.ne']
  split_ifs with htop hbot
  · exact Or.inl rfl
  · have hneg : -(2 : ℚ) ^ 1024 < 0 := neg_lt_zero.mpr (by positivity)
    exact absurd (hr.trans hbot) (not_le.mpr (hneg.trans (by norm_num)))
  · exact Or.inr ⟨_, hr, rfl⟩

theorem double_nat_huge {n : ℕ} (hn : 2 ^ 53 ≤ n) : Huge (double n) :=
  double_huge (by exact_mod_cast hn)

theorem Huge.add_one {x : JsNumber} (h : Huge x) : Huge (add x (ofRat 1)) := by
  rcases h with rfl | ⟨q, hq, rfl⟩
  · exact Or.inl rfl
  · exact double_huge (hq.trans (by linarith))

theorem Huge.not_le {x : JsNumber} (h : Huge x) {n : ℕ} (hn : n < 2 ^ 53) :
    le x (ofRat n) = false := by
  rcases h with rfl | ⟨q, hq, rfl⟩
  · simp [le, ofRat]
  · rw [le_ofRat]
    have hcast : (n : ℚ) < 2 ^ 53 := by exact_mod_cast hn
    exact decide_eq_false (by linarith)

theorem Huge.not_gt {x : JsNumber} (h : Huge x) {n : ℕ} (hn : n < 2 ^ 53) :
    gt (ofRat n) x = false := by
  rcases h with rfl | ⟨q, hq, rfl⟩
  · simp [gt, ofRat]
  · rw [gt_ofRat]
    have hcast : (n : ℚ) < 2 ^ 53 := by exact_mod_cast hn
    exact decide_eq_false (by linarith)

/-- One more than a number that is read, compared with a safe one. -/
theorem le_double_succ (a : ℕ) {n : ℕ} (hn : n < 2 ^ 53) :
    le (add (double a) (ofRat 1)) (ofRat n) = decide (a + 1 ≤ n) := by
  by_cases ha : a + 1 < 2 ^ 53
  · have hcast : (a : ℚ) + 1 = ((a + 1 : ℕ) : ℚ) := by push_cast; rfl
    rw [double_nat (by omega), add_ofRat, hcast, double_nat ha, le_ofRat]
    simp only [Nat.cast_le]
  · have hhuge : Huge (add (double a) (ofRat 1)) := by
      by_cases hbig : 2 ^ 53 ≤ a
      · exact (double_nat_huge hbig).add_one
      · rw [double_nat (by omega), add_ofRat]
        refine double_huge ?_
        have hcast : ((2 ^ 53 : ℕ) : ℚ) ≤ ((a + 1 : ℕ) : ℚ) := Nat.cast_le.mpr (by omega)
        push_cast at hcast
        exact hcast
    rw [hhuge.not_le hn]
    exact (decide_eq_false (by omega)).symm

theorem gt_double (a : ℕ) {n : ℕ} (hn : n < 2 ^ 53) :
    gt (ofRat n) (double a) = decide (a < n) := by
  by_cases ha : a < 2 ^ 53
  · rw [double_nat ha, gt_ofRat]
    simp only [Nat.cast_lt]
  · rw [(double_nat_huge (by omega)).not_gt hn]
    exact (decide_eq_false (by omega)).symm

end JsNumber

end GenieAcs
