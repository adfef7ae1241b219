import Mathlib.Data.List.TakeWhile
import GenieAcs.JsonText
import GenieAcs.Lib.Numeral
import GenieAcs.MongoQuery
import GenieAcs.ValueOrder

/-!
# Comparisons with ObjectIds

For a comparison with a literal `getMinterms` makes one clause for each type that the
field may have. An ObjectId is compared with the text of the literal rounded to one by
`roundOid`: up for `$lt` and `$lte`, down for `$gt` and `$gte`. The ids before a text
are those below a number (`cut`). Where this is not what is rounded to, as it never is
for `$lte` and `$gte` with a text that is no ObjectId, some id is compared otherwise
than its digits are.
-/

namespace GenieAcs

/-! ## Rounding -/

/-- The class `[0-9a-f]`. -/
def IsHexDigit (c : Nat) : Prop :=
  '0'.toNat ≤ c ∧ c ≤ '9'.toNat ∨ 'a'.toNat ≤ c ∧ c ≤ 'f'.toNat

instance : DecidablePred IsHexDigit := fun c =>
  inferInstanceAs (Decidable ('0'.toNat ≤ c ∧ c ≤ '9'.toNat ∨ 'a'.toNat ≤ c ∧ c ≤ 'f'.toNat))

/-- `BigInt("0x0" + digits)`. -/
def oidValue (digits : JsString) : ℕ := Numeral.value hexValue 16 digits

/-- `toString(16)` of a `BigInt`. -/
def toString16 : ℤ → JsString
  | .ofNat 0 => js "0"
  | .ofNat n => ((Nat.digits 16 n).map hexDigit).reverse
  | .negSucc n => js "-" ++ ((Nat.digits 16 (n + 1)).map hexDigit).reverse

/-- `padStart(24, "0")`. -/
def padOid (str : JsString) : JsString := List.replicate (24 - str.length) '0'.toNat ++ str

/-- The `match` of `roundOid`. -/
def oidMatch (oid : JsString) : JsString := (oid.takeWhile (IsHexDigit ·)).take 24

/-- The `lastChar` of `roundOid`. -/
def lastChar (oid : JsString) : ℤ :=
  let m := oidMatch oid
  let lastChar : ℤ := if m.length < oid.length then oid.getD m.length 0 else 0
  if m.length < 24 then lastChar - 48 else lastChar

/-- The `num` that `roundOid` prints. -/
def roundedNum (oid : JsString) (roundUp : Bool) : ℤ :=
  let m := oidMatch oid
  let num : ℤ := oidValue m
  let num := if 0 < lastChar oid ∧ roundUp then num + 1 else num
  let num := num * 2 ^ (4 * (24 - m.length))
  if lastChar oid < 0 ∧ !roundUp then num - 1 else num

def roundOid (oid : JsString) (roundUp : Bool) : Option JsString :=
  let str := toString16 (roundedNum oid roundUp)
  if 24 < str.length ∨ str.head? = some '-'.toNat then none else some (padOid str)

/-! ## Clauses of a comparison -/

/-- What an order of the two sides means for an operator. -/
def MongoOp.holds : MongoOp → Ordering → Bool
  | .eq, o => o == .eq
  | .gt, o => o == .gt
  | .lt, o => o == .lt
  | .gte, o => o != .lt
  | .lte, o => o != .gt

/-- The operator of `=`, `>` or `<` that is to be true or false. -/
def comparisonOp (operator : Ordering) (res : Bool) : MongoOp :=
  match operator with
  | .eq => .eq
  | .gt => if res then .gt else .lte
  | .lt => if res then .lt else .gte

section

variable (possibleTypes : List MongoType) (param : JsString) (op : MongoOp)

/-- The clauses that compare with the literal. -/
def valueClauses : Value → List MongoClause
  | .num rhs =>
      (if .number ∈ possibleTypes then [.compare param op (some (.num rhs)) .number] else [])
        ++ (if .date ∈ possibleTypes then [.compare param op (some (.num rhs)) .date] else [])
        ++ (if .bool ∈ possibleTypes ∧ (rhs = 0 ∨ rhs = 1)
          then [.compare param op (some (.bool (rhs ≠ 0))) .bool] else [])
  | .str rhs =>
      (if .string ∈ possibleTypes then [.compare param op (some (.str rhs)) .string] else [])
        ++ (if .oid ∈ possibleTypes then
          match roundOid rhs (op = .lt ∨ op = .lte) with
          | none => []
          | some oid =>
              if op ≠ .eq ∨ oid = rhs then [.compare param op (some (.str oid)) .oid] else []
        else [])
  | .bool _ => []

/-- The clauses that hold for all values of the types before or behind the literal. -/
def typeClauses : Value → List MongoClause
  | .num rhs =>
      (if .bool ∈ possibleTypes
          ∧ (1 < rhs ∧ (op = .lt ∨ op = .lte) ∨ rhs < 0 ∧ (op = .gt ∨ op = .gte))
        then [.compare param .gte (some (.bool false)) .bool] else [])
        ++ (if op = .gt ∨ op = .gte then
          (if .string ∈ possibleTypes then [.compare param .gte (some (.str [])) .string] else [])
            ++ (if .oid ∈ possibleTypes
              then [.compare param .gte (some (.str (padOid []))) .oid] else [])
        else [])
  | .str _ =>
      if op = .lt ∨ op = .lte then
        (if .bool ∈ possibleTypes then [.compare param .gte (some (.bool false)) .bool] else [])
          ++ (if .number ∈ possibleTypes then [.compare param .gte (some (.num 0)) .number,
            .compare param .lt (some (.num 0)) .number] else [])
          ++ (if .date ∈ possibleTypes then [.compare param .gte (some (.num 0)) .date,
            .compare param .lt (some (.num 0)) .date] else [])
      else []
  | .bool _ => []

/-- The minterms of a comparison with a literal, a boolean being compared as a number. -/
def comparisonMinterms (getVar : MongoClause → Nat) (operator : Ordering) (rhs : Value)
    (res : Bool) : Minterms :=
  let op := comparisonOp operator res
  let clauses := valueClauses possibleTypes param op rhs.ofBool
  if op = .eq ∧ res = false then
    [(clauses ++ [MongoClause.compare param .eq none .any]).map fun c => 2 * getVar c]
  else
    (clauses ++ typeClauses possibleTypes param op rhs.ofBool).map fun c => [2 * getVar c + 1]

end

/-- 24 digits. -/
structure IsOid (o : JsString) : Prop where
  length : o.length = 24
  digits : ∀ c ∈ o, IsHexDigit c

/-- A clause holds of an ObjectId: values of other types are not compared with it. -/
def MongoClause.SelectsOid (o : JsString) : MongoClause → Prop
  | .compare _ op (some (.str id)) .oid => op.holds (compareLt (oidValue o) (oidValue id)) = true
  | _ => False

/-- The number of ids. -/
@[irreducible] def oidCount : ℕ := 16 ^ 24

/-! ## Digits -/

theorem hexValue_mono (c d : Nat) (hc : IsHexDigit c) (hd : IsHexDigit d) :
    c < d ↔ hexValue c < hexValue d := by
  have hchars : '0'.toNat = 48 ∧ '9'.toNat = 57 ∧ 'a'.toNat = 97 ∧ 'f'.toNat = 102 :=
    ⟨rfl, rfl, rfl, rfl⟩
  unfold IsHexDigit at hc hd
  unfold hexValue
  split_ifs <;> omega

theorem hexValue_lt (c : Nat) (hc : IsHexDigit c) : hexValue c < 16 := by
  have hchars : '0'.toNat = 48 ∧ '9'.toNat = 57 ∧ 'a'.toNat = 97 ∧ 'f'.toNat = 102 :=
    ⟨rfl, rfl, rfl, rfl⟩
  unfold IsHexDigit at hc
  unfold hexValue
  split_ifs <;> omega

theorem hexDigit_isHexDigit {n : Nat} (hn : n < 16) : IsHexDigit (hexDigit n) := by
  have hchars : '0'.toNat = 48 ∧ '9'.toNat = 57 ∧ 'a'.toNat = 97 ∧ 'f'.toNat = 102 :=
    ⟨rfl, rfl, rfl, rfl⟩
  unfold IsHexDigit hexDigit
  split_ifs <;> omega

theorem oidValue_lt {o : JsString} (ho : ∀ c ∈ o, IsHexDigit c) : oidValue o < 16 ^ o.length :=
  Numeral.value_lt fun c hc => hexValue_lt c (ho c hc)

theorem oidMatch_digits (oid : JsString) : ∀ c ∈ oidMatch oid, IsHexDigit c := by
  intro c hc
  have hkept := List.mem_takeWhile_imp (List.mem_of_mem_take hc)
  exact of_decide_eq_true hkept

theorem oidMatch_length (oid : JsString) : (oidMatch oid).length ≤ 24 := List.length_take_le ..

/-- What follows the digits. -/
def oidRest (oid : JsString) : JsString := oid.drop (oidMatch oid).length

theorem oidMatch_append (oid : JsString) : oidMatch oid ++ oidRest oid = oid := by
  have htake : oidMatch oid <+: oid := (List.take_prefix ..).trans (List.takeWhile_prefix _)
  exact List.prefix_iff_eq_append.mp htake

/-- Fewer than 24 digits are followed by none. -/
theorem oidRest_head {oid : JsString} (h : (oidMatch oid).length < 24) {c : Nat}
    (hc : (oidRest oid).head? = some c) : ¬ IsHexDigit c := by
  have hmatch : oidMatch oid = oid.takeWhile (IsHexDigit ·) := by
    refine List.take_of_length_le ?_
    rw [oidMatch, List.length_take] at h
    omega
  have hdrop : oid.drop (oid.takeWhile (IsHexDigit ·)).length = oid.dropWhile (IsHexDigit ·) := by
    refine (List.append_right_inj (oid.takeWhile (IsHexDigit ·))).mp ?_
    rw [List.takeWhile_append_dropWhile]
    exact List.prefix_iff_eq_append.mp (List.takeWhile_prefix _)
  rw [oidRest, hmatch, hdrop] at hc
  have hnot := List.head?_dropWhile_not (fun c => decide (IsHexDigit c)) oid
  rw [hc] at hnot
  exact of_decide_eq_false hnot

/-- The text of a number that is not negative. -/
theorem toString16_ofNat (n : ℕ) :
    (∀ c ∈ toString16 n, IsHexDigit c) ∧ oidValue (toString16 n) = n
      ∧ ((toString16 n).length ≤ 24 ↔ n < oidCount) := by
  unfold oidCount
  cases n with
  | zero =>
      refine ⟨fun c hc => ?_, rfl, iff_of_true (by decide) (by decide)⟩
      rw [List.mem_singleton.mp hc]
      exact Or.inl ⟨Nat.le_refl _, by decide⟩
  | succ n =>
      have htext : toString16 (n + 1 : ℕ) = ((Nat.digits 16 (n + 1)).map hexDigit).reverse := rfl
      rw [htext]
      refine ⟨fun c hc => ?_, Numeral.value_digits (by decide) (fun d => hexValue_hexDigit) _, ?_⟩
      · obtain ⟨d, hd, rfl⟩ := List.mem_map.mp (List.mem_reverse.mp hc)
        exact hexDigit_isHexDigit (Nat.digits_lt_base (by decide) hd)
      · rw [List.length_reverse, List.length_map]
        exact Nat.digits_length_le_iff (by decide) _

theorem padOid_isOid {str : JsString} (hstr : ∀ c ∈ str, IsHexDigit c) (hlen : str.length ≤ 24) :
    IsOid (padOid str) ∧ oidValue (padOid str) = oidValue str := by
  have hzero : IsHexDigit '0'.toNat := Or.inl ⟨Nat.le_refl _, by decide⟩
  refine ⟨⟨?_, ?_⟩, ?_⟩
  · rw [padOid, List.length_append, List.length_replicate]
    omega
  · intro c hc
    rcases List.mem_append.mp hc with hc | hc
    · rw [List.eq_of_mem_replicate hc]
      exact hzero
    · exact hstr c hc
  · have hpad : Numeral.value hexValue 16 (List.replicate (24 - str.length) '0'.toNat) = 0 := by
      refine (Numeral.value_eq_zero (by decide)).mpr fun c hc => ?_
      rw [List.eq_of_mem_replicate hc]
      rfl
    rw [oidValue, padOid, Numeral.value_append, hpad, Nat.zero_mul, Nat.zero_add, oidValue]

/-- A number with 24 digits is printed as an ObjectId, and any other as none. -/
theorem roundOid_eq (oid : JsString) (roundUp : Bool) :
    if 0 ≤ roundedNum oid roundUp ∧ roundedNum oid roundUp < oidCount then
      ∃ v, roundOid oid roundUp = some v ∧ IsOid v ∧ (oidValue v : ℤ) = roundedNum oid roundUp
    else roundOid oid roundUp = none := by
  unfold roundOid
  cases roundedNum oid roundUp with
  | ofNat n =>
      obtain ⟨hdigits, hvalue, hlen⟩ := toString16_ofNat n
      rw [Int.ofNat_eq_natCast]
      have hminus : (toString16 n).head? ≠ some '-'.toNat := by
        intro hhead
        have hhex := hdigits _ (List.mem_of_mem_head? hhead)
        exact absurd hhex (by decide)
      by_cases hn : n < oidCount
      · rw [if_pos ⟨Int.natCast_nonneg n, by exact_mod_cast hn⟩]
        obtain ⟨hoid, heq⟩ := padOid_isOid hdigits (hlen.mpr hn)
        refine ⟨_, if_neg ?_, hoid, ?_⟩
        · rintro (h | h)
          · exact absurd (hlen.mpr hn) (Nat.not_le.mpr h)
          · exact hminus h
        · rw [heq, hvalue]
      · rw [if_neg fun h => hn (by exact_mod_cast h.2)]
        exact if_pos (Or.inl (Nat.not_le.mp (mt hlen.mp hn)))
  | negSucc n =>
      rw [if_neg fun h => absurd h.1 (by simp)]
      exact if_pos (Or.inr rfl)

theorem roundOid_isOid {oid v : JsString} {roundUp : Bool} (h : roundOid oid roundUp = some v) :
    IsOid v := by
  have hround := roundOid_eq oid roundUp
  split_ifs at hround
  · obtain ⟨v', hv', hoid, -⟩ := hround
    cases hv'.symm.trans h
    exact hoid
  · exact nomatch hround.symm.trans h

/-! ## The ids before a text -/

/-- The number that a run of digits begins with, the others being 0. -/
def oidFloor (s : JsString) : ℕ := oidValue (oidMatch s) * 16 ^ (24 - (oidMatch s).length)

section

variable {o s : JsString}

theorem lt_floor {cut : ℕ} (ho : IsOid o) (hcut : cut ≤ 16 ^ (24 - (oidMatch s).length))
    (hrest : ∀ w : JsString, w.length = 24 - (oidMatch s).length → (∀ c ∈ w, IsHexDigit c) →
      (w < oidRest s ↔ oidValue w < cut)) :
    o < s ↔ oidValue o < oidFloor s + cut := by
  have hle := oidMatch_length s
  have htake : (o.take (oidMatch s).length).length = (oidMatch s).length := by
    rw [List.length_take, ho.length]
    omega
  have hdrop : (o.drop (oidMatch s).length).length = 24 - (oidMatch s).length := by
    rw [List.length_drop, ho.length]
  have hdigits : ∀ c ∈ o.drop (oidMatch s).length, IsHexDigit c :=
    fun c hc => ho.digits c (List.mem_of_mem_drop hc)
  have h := Numeral.append_lt_iff hexValue_mono hexValue_lt htake
    (fun c hc => ho.digits c (List.mem_of_mem_take hc)) (oidMatch_digits s) hdigits
    (hdrop ▸ hcut) (hrest _ hdrop hdigits)
  rw [List.take_append_drop, oidMatch_append, hdrop] at h
  exact h

theorem lt_beyond (ho : IsOid o) (hlen : (oidMatch s).length = 24) (hrest : oidRest s ≠ []) :
    o < s ↔ oidValue o < oidFloor s + 1 := by
  refine lt_floor ho (Nat.pow_pos (by decide)) fun w hw _ => ?_
  rw [hlen] at hw
  rw [List.eq_nil_of_length_eq_zero hw]
  obtain ⟨c, r, hrest⟩ := List.exists_cons_of_ne_nil hrest
  rw [hrest]
  exact iff_of_true (List.nil_lt_cons c r) (by decide)

/-- No digit comes before the end of the text, or before a character below `0`. -/
theorem lt_low (ho : IsOid o) (hlen : (oidMatch s).length < 24)
    (hrest : ∀ c, (oidRest s).head? = some c → c < '0'.toNat) :
    o < s ↔ oidValue o < oidFloor s := by
  refine @lt_floor o s 0 ho (Nat.zero_le _) fun w hw hdigits => ?_
  refine iff_of_false ?_ (Nat.not_lt_zero _)
  cases w with
  | nil =>
      rw [List.length_nil] at hw
      omega
  | cons d w =>
      cases hr : oidRest s with
      | nil => exact List.not_lt_nil _
      | cons c r =>
          have hc := hrest c (by rw [hr]; rfl)
          have hd := hdigits d List.mem_cons_self
          have hchars : '0'.toNat = 48 ∧ 'a'.toNat = 97 := ⟨rfl, rfl⟩
          unfold IsHexDigit at hd
          rw [List.cons_lt_cons_iff]
          omega

/-- Every digit comes before a character above `f`. -/
theorem lt_high (ho : IsOid o) (hlen : (oidMatch s).length < 24) {c : Nat}
    (hc : (oidRest s).head? = some c) (hhigh : 'f'.toNat < c) :
    o < s ↔ oidValue o < oidFloor s + 16 ^ (24 - (oidMatch s).length) := by
  refine lt_floor ho (Nat.le_refl _) fun w hw hdigits => ?_
  refine iff_of_true ?_ (hw ▸ oidValue_lt hdigits)
  obtain ⟨r, hr⟩ := List.head?_eq_some_iff.mp hc
  cases w with
  | nil =>
      rw [List.length_nil] at hw
      omega
  | cons d w =>
      have hd := hdigits d List.mem_cons_self
      have hchars : '9'.toNat = 57 ∧ 'f'.toNat = 102 := ⟨rfl, rfl⟩
      unfold IsHexDigit at hd
      rw [hr, List.cons_lt_cons_iff]
      omega

/-- A character between `9` and `a` comes behind ten digits. -/
theorem lt_middle (ho : IsOid o) (hlen : (oidMatch s).length < 24) {c : Nat}
    (hc : (oidRest s).head? = some c) (hlow : '9'.toNat < c) (hhigh : c < 'a'.toNat) :
    o < s ↔ oidValue o < oidFloor s + 10 * 16 ^ (23 - (oidMatch s).length) := by
  have hpow : 16 ^ (24 - (oidMatch s).length) = 16 * 16 ^ (23 - (oidMatch s).length) := by
    rw [← pow_succ']
    congr 1
    omega
  refine lt_floor ho (by omega) fun w hw hdigits => ?_
  obtain ⟨r, hr⟩ := List.head?_eq_some_iff.mp hc
  cases w with
  | nil =>
      rw [List.length_nil] at hw
      omega
  | cons d w =>
      obtain ⟨hd, hw'⟩ := List.forall_mem_cons.mp hdigits
      have hlt := oidValue_lt hw'
      rw [List.length_cons] at hw
      have hlenw : w.length = 23 - (oidMatch s).length := by omega
      rw [hlenw] at hlt
      rw [hr, List.cons_lt_cons_iff, oidValue, Numeral.value, ← oidValue, hlenw]
      have hchars : '0'.toNat = 48 ∧ '9'.toNat = 57 ∧ 'a'.toNat = 97 := ⟨rfl, rfl, rfl⟩
      rcases hd with hd | hd
      · have hvalue : hexValue d + 1 ≤ 10 := by
          unfold hexValue
          split_ifs <;> omega
        have hstep := Nat.mul_le_mul_right (16 ^ (23 - (oidMatch s).length)) hvalue
        rw [Nat.add_mul] at hstep
        exact iff_of_true (by omega) (by omega)
      · have hvalue : 10 ≤ hexValue d := by
          unfold hexValue
          split_ifs <;> omega
        have hstep := Nat.mul_le_mul_right (16 ^ (23 - (oidMatch s).length)) hvalue
        exact iff_of_false (by omega) (by omega)

/-- Only a text of 24 digits is an id. -/
theorem isOid_iff : IsOid s ↔ (oidMatch s).length = 24 ∧ oidRest s = [] := by
  have hsplit := congrArg List.length (oidMatch_append s)
  rw [List.length_append] at hsplit
  constructor
  · intro h
    have htake : oidMatch s = s := by
      have hall : s.takeWhile (IsHexDigit ·) = s :=
        List.takeWhile_eq_self_iff.mpr fun c hc => decide_eq_true (h.digits c hc)
      rw [oidMatch, hall, List.take_of_length_le h.length.le]
    rw [htake, h.length] at hsplit
    exact ⟨by rw [htake, h.length], List.eq_nil_of_length_eq_zero (by omega)⟩
  · rintro ⟨hlen, hrest⟩
    have hs := oidMatch_append s
    rw [hrest, List.append_nil] at hs
    exact ⟨hs ▸ hlen, hs ▸ oidMatch_digits s⟩

theorem oid_eq_iff (ho : IsOid o) (hs : IsOid s) : o = s ↔ oidValue o = oidValue s :=
  Numeral.value_inj hexValue_mono hexValue_lt (ho.length.trans hs.length.symm) ho.digits hs.digits

/-- Every number is that of an id. -/
theorem exists_oid {n : ℕ} (hn : n < oidCount) : ∃ o, IsOid o ∧ oidValue o = n := by
  obtain ⟨hdigits, hvalue, hlen⟩ := toString16_ofNat n
  obtain ⟨hoid, heq⟩ := padOid_isOid hdigits (hlen.mpr hn)
  exact ⟨_, hoid, heq.trans hvalue⟩

theorem IsOid.value_lt (ho : IsOid o) : oidValue o < oidCount := by
  have h := oidValue_lt ho.digits
  rw [ho.length] at h
  unfold oidCount
  exact h

/-! ## What is rounded to -/

theorem lastChar_eq (s : JsString) :
    lastChar s = ((oidRest s).head?.getD 0 : ℕ) - if (oidMatch s).length < 24 then 48 else 0 := by
  have hhead : (if (oidMatch s).length < s.length then (s.getD (oidMatch s).length 0 : ℤ) else 0)
      = ((oidRest s).head?.getD 0 : ℕ) := by
    rw [oidRest, List.head?_drop, List.getD_eq_getElem?_getD]
    by_cases hlt : (oidMatch s).length < s.length
    · rw [if_pos hlt]
    · rw [if_neg hlt, List.getElem?_eq_none (Nat.not_lt.mp hlt)]
      rfl
  rw [lastChar, hhead]
  by_cases hlen : (oidMatch s).length < 24
  · rw [if_pos hlen, if_pos hlen]
  · rw [if_neg hlen, if_neg hlen, sub_zero]

theorem roundedNum_up (s : JsString) : roundedNum s true = (oidFloor s
    + if 0 < lastChar s then 16 ^ (24 - (oidMatch s).length) else 0 : ℕ) := by
  have hpow : (2 : ℤ) ^ (4 * (24 - (oidMatch s).length)) = 16 ^ (24 - (oidMatch s).length) := by
    rw [pow_mul]
    norm_num
  rw [roundedNum, hpow, oidFloor]
  by_cases h : 0 < lastChar s
  · simp only [h, Bool.not_true, Bool.false_eq_true, and_true, and_false, if_true, if_false]
    push_cast
    ring
  · simp only [h, Bool.not_true, Bool.false_eq_true, false_and, and_false, if_false]
    push_cast
    ring

theorem roundedNum_down (s : JsString) :
    roundedNum s false = (oidFloor s : ℤ) - if lastChar s < 0 then 1 else 0 := by
  have hpow : (2 : ℤ) ^ (4 * (24 - (oidMatch s).length)) = 16 ^ (24 - (oidMatch s).length) := by
    rw [pow_mul]
    norm_num
  rw [roundedNum, hpow, oidFloor]
  by_cases h : lastChar s < 0
  · simp only [h, Bool.not_false, Bool.false_eq_true, and_true, and_false, if_true, if_false]
    push_cast
    ring
  · simp only [h, Bool.not_false, Bool.false_eq_true, false_and, and_false, if_false]
    push_cast
    ring

theorem pow_count (s : JsString) :
    16 ^ (oidMatch s).length * 16 ^ (24 - (oidMatch s).length) = oidCount := by
  have hle := oidMatch_length s
  unfold oidCount
  rw [← pow_add]
  congr 1
  omega

theorem floor_add_le (s : JsString) :
    oidFloor s + 16 ^ (24 - (oidMatch s).length) ≤ oidCount := by
  have hlt := oidValue_lt (oidMatch_digits s)
  have hstep := Nat.mul_le_mul_right (16 ^ (24 - (oidMatch s).length)) (Nat.succ_le_of_lt hlt)
  rw [Nat.succ_mul, pow_count] at hstep
  exact hstep

theorem hexValue_eq_zero {c : Nat} (hc : IsHexDigit c) : hexValue c = 0 ↔ c = '0'.toNat := by
  have hchars : '0'.toNat = 48 ∧ '9'.toNat = 57 ∧ 'a'.toNat = 97 := ⟨rfl, rfl, rfl⟩
  unfold IsHexDigit at hc
  unfold hexValue
  split_ifs
  · omega
  · exact iff_of_false id (by omega)

theorem hexValue_eq_top {c : Nat} (hc : IsHexDigit c) : hexValue c + 1 = 16 ↔ c = 'f'.toNat := by
  have hchars : '0'.toNat = 48 ∧ '9'.toNat = 57 ∧ 'a'.toNat = 97 ∧ 'f'.toNat = 102 :=
    ⟨rfl, rfl, rfl, rfl⟩
  unfold IsHexDigit at hc
  unfold hexValue
  split_ifs <;> omega

theorem floor_eq_zero (s : JsString) : oidFloor s = 0 ↔ ∀ c ∈ oidMatch s, c = '0'.toNat := by
  have hpos : 16 ^ (24 - (oidMatch s).length) ≠ 0 := (Nat.pow_pos (by decide)).ne'
  rw [oidFloor, Nat.mul_eq_zero, or_iff_left hpos, oidValue, Numeral.value_eq_zero (by decide)]
  exact forall₂_congr fun c hc => hexValue_eq_zero (oidMatch_digits s c hc)

/-- The next number with 24 digits is missing behind `ff...f`. -/
theorem floor_add_eq (s : JsString) :
    oidFloor s + 16 ^ (24 - (oidMatch s).length) = oidCount
      ↔ ∀ c ∈ oidMatch s, c = 'f'.toNat := by
  have hpos : 0 < 16 ^ (24 - (oidMatch s).length) := Nat.pow_pos (by decide)
  have htop := @Numeral.value_top _ hexValue 16 (oidMatch s)
    fun c hc => hexValue_lt c (oidMatch_digits s c hc)
  rw [oidFloor, ← Nat.succ_mul, ← pow_count s, Nat.mul_left_inj hpos.ne', oidValue, htop]
  exact forall₂_congr fun c hc => hexValue_eq_top (oidMatch_digits s c hc)

/-! ## Which comparisons are kept -/

/-- The digits stop early, at the end of the text or before a character below `0`. -/
def EndsLow (s : JsString) : Prop :=
  (oidMatch s).length < 24 ∧ ∀ c, (oidRest s).head? = some c → c < '0'.toNat

/-- The digits stop early before a character above `f`, or another character than NUL
follows 24 of them. -/
def GoesOn (s : JsString) : Prop :=
  ∃ c, (oidRest s).head? = some c
    ∧ if (oidMatch s).length < 24 then 'f'.toNat < c else c ≠ 0

/-- The texts that ids are compared with as their digits are. -/
def KeepsOrder (s : JsString) : MongoOp → Prop
  | .eq => True
  | .lt => IsOid s ∨ EndsLow s ∨ GoesOn s ∧ ∃ c ∈ oidMatch s, c ≠ 'f'.toNat
  | .lte => IsOid s ∨ (oidMatch s).length = 24 ∧ (oidRest s).head? = some 0
  | .gt => (oidMatch s).length = 24 ∨ EndsLow s ∧ ∃ c ∈ oidMatch s, c ≠ '0'.toNat
  | .gte => IsOid s

/-- Two bounds that leave the same ids below them are equal. -/
theorem bound_eq_iff {bound : ℤ} {cut : ℕ} (hcut : cut ≤ oidCount)
    (hbound : 0 ≤ bound ∧ bound ≤ oidCount) :
    (∀ n : ℕ, n < oidCount → ((n : ℤ) < bound ↔ n < cut)) ↔ bound = cut := by
  obtain ⟨b, rfl⟩ := Int.eq_ofNat_of_zero_le hbound.1
  have hb := hbound.2
  constructor
  · intro h
    rcases lt_trichotomy b cut with hlt | heq | hlt
    · have hn := h b (by omega)
      omega
    · omega
    · have hn := h cut (by omega)
      omega
  · intro heq n _
    omega

/-- The ids below a number, against those before a text. -/
theorem below_iff {valid : Prop} {bound : ℤ} {cut : ℕ} (hcut : cut ≤ oidCount)
    (hbound : valid → 0 ≤ bound ∧ bound ≤ oidCount) :
    (∀ n : ℕ, n < oidCount → (valid ∧ (n : ℤ) < bound ↔ n < cut))
      ↔ valid ∧ bound = cut ∨ ¬ valid ∧ cut = 0 := by
  by_cases hvalid : valid
  · simp only [hvalid, true_and, not_true_eq_false, false_and, or_false]
    exact bound_eq_iff hcut (hbound hvalid)
  · simp only [hvalid, false_and, false_iff, not_false_eq_true, true_and, false_or]
    constructor
    · intro h
      by_contra hne
      exact h 0 (by omega) (by omega)
    · intro heq n _
      omega

theorem above_iff {valid : Prop} {bound : ℤ} {cut : ℕ} (hcut : cut ≤ oidCount)
    (hbound : valid → 0 ≤ bound ∧ bound ≤ oidCount) :
    (∀ n : ℕ, n < oidCount → (valid ∧ bound ≤ (n : ℤ) ↔ cut ≤ n))
      ↔ valid ∧ bound = cut ∨ ¬ valid ∧ cut = oidCount := by
  by_cases hvalid : valid
  · simp only [hvalid, true_and, not_true_eq_false, false_and, or_false]
    rw [← bound_eq_iff hcut (hbound hvalid)]
    exact forall₂_congr fun n _ => by rw [← not_lt, ← not_lt, not_iff_not]
  · simp only [hvalid, false_and, false_iff, not_false_eq_true, true_and, false_or]
    constructor
    · intro h
      by_contra hne
      exact h cut (by omega) (Nat.le_refl _)
    · intro heq n _
      omega

end

/-- What an operator says of a linear order. -/
theorem MongoOp.holds_iff {α : Type} [LinearOrder α] [DecidableLT α] (op : MongoOp) (a b : α) :
    op.holds (compareLt a b) = true ↔ match op with
      | .eq => a = b
      | .gt => b < a
      | .lt => a < b
      | .gte => b ≤ a
      | .lte => a ≤ b := by
  cases op with
  | eq => exact beq_iff_eq.trans compareLt_eq_eq
  | gt => exact beq_iff_eq.trans compareLt_eq_gt
  | lt => exact beq_iff_eq.trans compareLt_eq_lt
  | gte => exact (bne_iff_ne.trans (not_congr compareLt_eq_lt)).trans not_lt
  | lte => exact (bne_iff_ne.trans (not_congr compareLt_eq_gt)).trans not_lt

section

variable {s : JsString}

/-- The literal of a comparison other than `$eq`, as a comparison of numbers. -/
theorem rounded_holds (op : MongoOp) (up : Bool) (o : JsString) :
    (∃ v, roundOid s up = some v ∧ op.holds (compareLt (oidValue o) (oidValue v)) = true)
      ↔ (0 ≤ roundedNum s up ∧ roundedNum s up < oidCount)
        ∧ op.holds (compareLt (oidValue o : ℤ) (roundedNum s up)) = true := by
  have hround := roundOid_eq s up
  by_cases hvalid : 0 ≤ roundedNum s up ∧ roundedNum s up < oidCount
  · rw [if_pos hvalid] at hround
    obtain ⟨v, hv, -, hvalue⟩ := hround
    have hcompare : op.holds (compareLt (oidValue o : ℤ) (oidValue v)) = true
        ↔ op.holds (compareLt (oidValue o) (oidValue v)) = true := by
      rw [MongoOp.holds_iff, MongoOp.holds_iff]
      cases op <;> simp only [Nat.cast_inj, Nat.cast_lt, Nat.cast_le]
    rw [← hvalue, hcompare]
    constructor
    · rintro ⟨v', hv', h⟩
      cases hv.symm.trans hv'
      exact ⟨hvalue ▸ hvalid, h⟩
    · exact fun h => ⟨v, hv, h.2⟩
  · rw [if_neg hvalid] at hround
    constructor
    · rintro ⟨v, hv, -⟩
      exact nomatch hround.symm.trans hv
    · exact fun h => absurd h.1 hvalid

theorem forall_oid {P : ℕ → Prop} :
    (∀ o, IsOid o → P (oidValue o)) ↔ ∀ n : ℕ, n < oidCount → P n := by
  constructor
  · intro h n hn
    obtain ⟨o, ho, rfl⟩ := exists_oid hn
    exact h o ho
  · exact fun h o ho => h _ ho.value_lt

/-- The literal of an operator is about the same ids as the comparison with the text. -/
def Keeps (s : JsString) (op : MongoOp) : Prop :=
  ∀ o, IsOid o → ((∃ v, roundOid s (op = .lt ∨ op = .lte) = some v ∧ (op ≠ .eq ∨ v = s)
    ∧ op.holds (compareLt (oidValue o) (oidValue v)) = true)
      ↔ op.holds (compareLt o s) = true)

/-- Where the ids before a text end, and those up to it. -/
structure Place (s : JsString) (cut cut' : ℕ) : Prop where
  le : cut' ≤ oidCount
  le' : cut ≤ cut'
  lt_iff : ∀ o, IsOid o → (o < s ↔ oidValue o < cut)
  le_iff : ∀ o, IsOid o → (o ≤ s ↔ oidValue o < cut')

theorem Place.of_ne {cut : ℕ} (hcut : cut ≤ oidCount)
    (hlt : ∀ o, IsOid o → (o < s ↔ oidValue o < cut)) (hs : ¬ IsOid s) : Place s cut cut := by
  refine ⟨hcut, Nat.le_refl _, hlt, fun o ho => ?_⟩
  have hne : o ≠ s := fun heq => hs (heq ▸ ho)
  rw [← hlt o ho]
  exact ⟨fun h => lt_of_le_of_ne h hne, le_of_lt⟩

/-- The number that an operator rounds to has 24 digits. -/
def Valid (s : JsString) (up : Bool) : Prop :=
  0 ≤ roundedNum s up ∧ roundedNum s up < oidCount

theorem keeps_iff {op : MongoOp} (hop : op ≠ .eq) : Keeps s op ↔ ∀ o, IsOid o →
    ((Valid s (op = .lt ∨ op = .lte)
      ∧ op.holds (compareLt (oidValue o : ℤ) (roundedNum s (op = .lt ∨ op = .lte))) = true)
      ↔ op.holds (compareLt o s) = true) := by
  refine forall₂_congr fun o _ => iff_congr ?_ Iff.rfl
  rw [Valid, ← rounded_holds]
  simp only [ne_eq, hop, not_false_eq_true, true_or, true_and]

variable {cut cut' : ℕ}

theorem Place.keeps_lt (h : Place s cut cut') : Keeps s .lt
    ↔ Valid s true ∧ roundedNum s true = cut ∨ ¬ Valid s true ∧ cut = 0 := by
  have hop : MongoOp.lt ≠ .eq := fun heq => nomatch heq
  rw [keeps_iff hop]
  simp only [MongoOp.holds_iff, reduceCtorEq, or_false, decide_true]
  have hbelow := @below_iff (Valid s true) (roundedNum s true) cut (h.le'.trans h.le)
    fun hvalid => ⟨hvalid.1, hvalid.2.le⟩
  rw [← hbelow, ← forall_oid (P := fun n => Valid s true ∧ (n : ℤ) < roundedNum s true ↔ n < cut)]
  exact forall₂_congr fun o ho => iff_congr Iff.rfl (h.lt_iff o ho)

theorem Place.keeps_lte (h : Place s cut cut') : Keeps s .lte
    ↔ Valid s true ∧ roundedNum s true + 1 = cut' ∨ ¬ Valid s true ∧ cut' = 0 := by
  have hop : MongoOp.lte ≠ .eq := fun heq => nomatch heq
  rw [keeps_iff hop]
  simp only [MongoOp.holds_iff, reduceCtorEq, false_or, decide_true, ← Int.lt_add_one_iff]
  have hbelow := @below_iff (Valid s true) (roundedNum s true + 1) cut' h.le
    fun hvalid => ⟨by linarith [hvalid.1], hvalid.2⟩
  rw [← hbelow,
    ← forall_oid (P := fun n => Valid s true ∧ (n : ℤ) < roundedNum s true + 1 ↔ n < cut')]
  exact forall₂_congr fun o ho => iff_congr Iff.rfl (h.le_iff o ho)

theorem Place.keeps_gt (h : Place s cut cut') : Keeps s .gt
    ↔ Valid s false ∧ roundedNum s false + 1 = cut' ∨ ¬ Valid s false ∧ cut' = oidCount := by
  have hop : MongoOp.gt ≠ .eq := fun heq => nomatch heq
  rw [keeps_iff hop]
  simp only [MongoOp.holds_iff, reduceCtorEq, or_false, decide_false, ← Int.add_one_le_iff]
  have habove := @above_iff (Valid s false) (roundedNum s false + 1) cut' h.le
    fun hvalid => ⟨by linarith [hvalid.1], hvalid.2⟩
  rw [← habove,
    ← forall_oid (P := fun n => Valid s false ∧ roundedNum s false + 1 ≤ (n : ℤ) ↔ cut' ≤ n)]
  refine forall₂_congr fun o ho => iff_congr Iff.rfl ?_
  rw [← not_le, h.le_iff o ho, not_lt]

theorem Place.keeps_gte (h : Place s cut cut') : Keeps s .gte
    ↔ Valid s false ∧ roundedNum s false = cut ∨ ¬ Valid s false ∧ cut = oidCount := by
  have hop : MongoOp.gte ≠ .eq := fun heq => nomatch heq
  rw [keeps_iff hop]
  simp only [MongoOp.holds_iff, reduceCtorEq, or_false, decide_false]
  have habove := @above_iff (Valid s false) (roundedNum s false) cut (h.le'.trans h.le)
    fun hvalid => ⟨hvalid.1, hvalid.2.le⟩
  rw [← habove, ← forall_oid (P := fun n => Valid s false ∧ roundedNum s false ≤ (n : ℤ) ↔ cut ≤ n)]
  refine forall₂_congr fun o ho => iff_congr Iff.rfl ?_
  rw [← not_lt, h.lt_iff o ho, not_lt]

theorem exists_ne_zero : (∃ c ∈ oidMatch s, c ≠ '0'.toNat) ↔ oidFloor s ≠ 0 := by
  rw [ne_eq, floor_eq_zero]
  push Not
  rfl

theorem exists_ne_top : (∃ c ∈ oidMatch s, c ≠ 'f'.toNat)
    ↔ oidFloor s + 16 ^ (24 - (oidMatch s).length) ≠ oidCount := by
  rw [ne_eq, floor_add_eq]
  push Not
  rfl

/-- The text of an id is rounded to itself. -/
theorem roundedNum_oid (hs : IsOid s) (up : Bool) : roundedNum s up = oidValue s := by
  obtain ⟨hlen, hrest⟩ := isOid_iff.mp hs
  have happend := oidMatch_append s
  rw [hrest, List.append_nil] at happend
  have hfloor : oidFloor s = oidValue s := by
    rw [oidFloor, hlen, happend, pow_zero, Nat.mul_one]
  have hlast : lastChar s = 0 := by
    rw [lastChar_eq, hrest, hlen]
    rfl
  cases up with
  | true =>
      rw [roundedNum_up, hlast, hfloor]
      rfl
  | false =>
      rw [roundedNum_down, hlast, hfloor]
      exact sub_zero _

theorem keeps_oid (hs : IsOid s) (op : MongoOp) : Keeps s op := by
  intro o ho
  have hround := roundOid_eq s (op = .lt ∨ op = .lte)
  have hvalid : 0 ≤ (oidValue s : ℤ) ∧ (oidValue s : ℤ) < oidCount :=
    ⟨Int.natCast_nonneg _, by exact_mod_cast hs.value_lt⟩
  rw [roundedNum_oid hs, if_pos hvalid] at hround
  obtain ⟨v, hv, hoid, hvalue⟩ := hround
  obtain rfl := (oid_eq_iff hoid hs).mpr (Int.ofNat_inj.mp hvalue)
  have hcompare : op.holds (compareLt (oidValue o) (oidValue v)) = true
      ↔ op.holds (compareLt o v) = true := by
    have hlt := Numeral.value_lt_iff hexValue_mono hexValue_lt (ho.length.trans hs.length.symm)
      ho.digits hs.digits
    have hgt := Numeral.value_lt_iff hexValue_mono hexValue_lt (hs.length.trans ho.length.symm)
      hs.digits ho.digits
    rw [MongoOp.holds_iff, MongoOp.holds_iff]
    cases op with
    | eq => exact (oid_eq_iff ho hs).symm
    | gt => exact hgt.symm
    | lt => exact hlt.symm
    | gte => exact not_lt.symm.trans ((not_congr hlt.symm).trans not_lt)
    | lte => exact not_lt.symm.trans ((not_congr hgt.symm).trans not_lt)
  constructor
  · rintro ⟨v', hv', -, h⟩
    cases hv.symm.trans hv'
    exact hcompare.mp h
  · exact fun h => ⟨v, hv, Or.inr rfl, hcompare.mpr h⟩

/-- An equality has a literal only with the text of an id. -/
theorem keeps_eq (s : JsString) : Keeps s .eq := by
  by_cases hs : IsOid s
  · exact keeps_oid hs .eq
  · intro o ho
    rw [MongoOp.holds_iff]
    constructor
    · rintro ⟨v, hv, heq, -⟩
      obtain rfl := heq.resolve_left fun hne => hne rfl
      exact absurd (roundOid_isOid hv) hs
    · rintro rfl
      exact absurd ho hs

theorem keeps_beyond (hlen : (oidMatch s).length = 24) (hrest : oidRest s ≠ []) {op : MongoOp}
    (hop : op ≠ .eq) : Keeps s op ↔ KeepsOrder s op := by
  obtain ⟨c, r, hr⟩ := List.exists_cons_of_ne_nil hrest
  have hs : ¬ IsOid s := fun hs => hrest (isOid_iff.mp hs).2
  have hle := floor_add_le s
  have hup := roundedNum_up s
  have hdown := roundedNum_down s
  have htop := @exists_ne_top s
  have hlast : lastChar s = c := by
    rw [lastChar_eq, hr, hlen]
    simp
  have hends : ¬ EndsLow s := fun h => absurd hlen h.1.ne
  have hgoes : GoesOn s ↔ c ≠ 0 := by
    simp [GoesOn, hlen, hr]
  rw [hlen, Nat.sub_self, pow_zero] at hle hup htop
  have hplace : Place s (oidFloor s + 1) (oidFloor s + 1) :=
    .of_ne hle (fun o ho => lt_beyond ho hlen hrest) hs
  have hdown' : roundedNum s false = oidFloor s := by
    rw [hdown, hlast, if_neg (by omega), sub_zero]
  rw [hlast] at hup
  cases op with
  | eq => exact absurd rfl hop
  | lt =>
      rw [hplace.keeps_lt, KeepsOrder, Valid, htop, hgoes]
      simp only [hs, hends, false_or]
      split_ifs at hup <;> omega
  | lte =>
      rw [hplace.keeps_lte, KeepsOrder, Valid, hr]
      simp only [hs, hlen, false_or, true_and, List.head?_cons, Option.some.injEq]
      split_ifs at hup <;> omega
  | gt =>
      rw [hplace.keeps_gt, KeepsOrder, Valid, hdown']
      simp only [hlen, true_or, iff_true]
      omega
  | gte =>
      rw [hplace.keeps_gte, KeepsOrder, Valid, hdown']
      simp only [hs, iff_false]
      omega

theorem keeps_low (hends : EndsLow s) {op : MongoOp} (hop : op ≠ .eq) :
    Keeps s op ↔ KeepsOrder s op := by
  have hlow := hends
  obtain ⟨hlen, hrest⟩ := hends
  have hs : ¬ IsOid s := fun hs => absurd (isOid_iff.mp hs).1 hlen.ne
  have hle := floor_add_le s
  have hpos : 0 < 16 ^ (24 - (oidMatch s).length) := Nat.pow_pos (by decide)
  have hlast : lastChar s < 0 := by
    rw [lastChar_eq, if_pos hlen]
    cases hr : (oidRest s).head? with
    | none => decide
    | some c =>
        have hc : c < 48 := hrest c hr
        rw [Option.getD_some]
        omega
  have hup : roundedNum s true = oidFloor s := by
    rw [roundedNum_up, if_neg hlast.not_gt, Nat.add_zero]
  have hdown : roundedNum s false = (oidFloor s : ℤ) - 1 := by
    rw [roundedNum_down, if_pos hlast]
  have hplace : Place s (oidFloor s) (oidFloor s) :=
    .of_ne (by omega) (fun o ho => lt_low ho hlen hrest) hs
  cases op with
  | eq => exact absurd rfl hop
  | lt =>
      rw [hplace.keeps_lt, KeepsOrder, Valid, hup]
      exact iff_of_true (by omega) (Or.inr (Or.inl hlow))
  | lte =>
      rw [hplace.keeps_lte, KeepsOrder, Valid, hup]
      refine iff_of_false (by omega) ?_
      rintro (h | h)
      · exact hs h
      · exact hlen.ne h.1
  | gt =>
      rw [hplace.keeps_gt, KeepsOrder, Valid, hdown, exists_ne_zero]
      simp only [hlen.ne, hlow, true_and, false_or]
      omega
  | gte =>
      rw [hplace.keeps_gte, KeepsOrder, Valid, hdown]
      simp only [hs, iff_false]
      omega

/-- The digits stop early before a character that is no digit and not below `0`. -/
theorem keeps_high (hlen : (oidMatch s).length < 24) {c : Nat}
    (hc : (oidRest s).head? = some c) (hhigh : '0'.toNat ≤ c) {op : MongoOp} (hop : op ≠ .eq) :
    Keeps s op ↔ KeepsOrder s op := by
  have hs : ¬ IsOid s := fun hs => absurd (isOid_iff.mp hs).1 hlen.ne
  have hends : ¬ EndsLow s := fun h => absurd (h.2 c hc) (Nat.not_lt.mpr hhigh)
  have hgoes : GoesOn s ↔ 'f'.toNat < c := by
    simp [GoesOn, hlen, hc]
  have hchars : '0'.toNat = 48 ∧ '9'.toNat = 57 ∧ 'a'.toNat = 97 ∧ 'f'.toNat = 102 :=
    ⟨rfl, rfl, rfl, rfl⟩
  have hnot := oidRest_head hlen hc
  unfold IsHexDigit at hnot
  have hle := floor_add_le s
  have htop := @exists_ne_top s
  have hpow : 16 ^ (24 - (oidMatch s).length) = 16 * 16 ^ (23 - (oidMatch s).length) := by
    rw [← pow_succ']
    congr 1
    omega
  have hpos : 0 < 16 ^ (23 - (oidMatch s).length) := Nat.pow_pos (by decide)
  have hlast : 0 < lastChar s := by
    rw [lastChar_eq, if_pos hlen, hc, Option.getD_some]
    omega
  have hup : roundedNum s true = (oidFloor s + 16 ^ (24 - (oidMatch s).length) : ℕ) := by
    rw [roundedNum_up, if_pos hlast]
  have hdown : roundedNum s false = oidFloor s := by
    rw [roundedNum_down, if_neg hlast.not_gt, sub_zero]
  obtain ⟨cut, hplace, hcut⟩ : ∃ cut, Place s cut cut ∧
      (('f'.toNat < c ∧ cut = oidFloor s + 16 ^ (24 - (oidMatch s).length))
        ∨ (¬ 'f'.toNat < c ∧ cut = oidFloor s + 10 * 16 ^ (23 - (oidMatch s).length))) := by
    by_cases hf : 'f'.toNat < c
    · exact ⟨_, .of_ne hle (fun o ho => lt_high ho hlen hc hf) hs, Or.inl ⟨hf, rfl⟩⟩
    · refine ⟨_, .of_ne ?_ (fun o ho => lt_middle ho hlen hc ?_ ?_) hs, Or.inr ⟨hf, rfl⟩⟩ <;> omega
  rw [hpow] at hle hup htop hcut
  cases op with
  | eq => exact absurd rfl hop
  | lt =>
      rw [hplace.keeps_lt, KeepsOrder, Valid, hup, htop, hgoes]
      simp only [hs, hends, false_or]
      omega
  | lte =>
      rw [hplace.keeps_lte, KeepsOrder, Valid, hup]
      simp only [hs, hlen.ne, false_and, or_self, iff_false]
      omega
  | gt =>
      rw [hplace.keeps_gt, KeepsOrder, Valid, hdown]
      simp only [hlen.ne, hends, false_and, or_self, iff_false]
      omega
  | gte =>
      rw [hplace.keeps_gte, KeepsOrder, Valid, hdown]
      simp only [hs, iff_false]
      omega

theorem keeps_iff_keepsOrder (s : JsString) (op : MongoOp) : Keeps s op ↔ KeepsOrder s op := by
  by_cases hop : op = .eq
  · rw [hop]
    exact iff_of_true (keeps_eq s) trivial
  by_cases hs : IsOid s
  · refine iff_of_true (keeps_oid hs op) ?_
    cases op with
    | eq => trivial
    | gt => exact Or.inl (isOid_iff.mp hs).1
    | lt => exact Or.inl hs
    | gte => exact hs
    | lte => exact Or.inl hs
  rcases (oidMatch_length s).eq_or_lt with hlen | hlen
  · exact keeps_beyond hlen (fun hrest => hs (isOid_iff.mpr ⟨hlen, hrest⟩)) hop
  cases hc : (oidRest s).head? with
  | none => exact keeps_low ⟨hlen, fun c heq => nomatch hc.symm.trans heq⟩ hop
  | some c =>
      by_cases hlow : c < '0'.toNat
      · refine keeps_low ⟨hlen, fun d heq => ?_⟩ hop
        cases hc.symm.trans heq
        exact hlow
      · exact keeps_high hlen hc (Nat.not_lt.mp hlow) hop

end

/-! ## The clauses of a comparison with a text -/

/-- Of the clauses only the one with the rounded text is about ObjectIds. -/
theorem selectsOid_iff {possibleTypes : List MongoType} (hoid : .oid ∈ possibleTypes)
    (param : JsString) (op : MongoOp) (s o : JsString) :
    (∃ c ∈ valueClauses possibleTypes param op (.str s)
      ++ typeClauses possibleTypes param op (.str s), c.SelectsOid o)
    ↔ ∃ v, roundOid s (op = .lt ∨ op = .lte) = some v ∧ (op ≠ .eq ∨ v = s)
      ∧ op.holds (compareLt (oidValue o) (oidValue v)) = true := by
  have htypes : ∀ c ∈ typeClauses possibleTypes param op (.str s), ¬ c.SelectsOid o := by
    intro c hc
    unfold typeClauses at hc
    split_ifs at hc <;> simp at hc <;> grind [MongoClause.SelectsOid]
  rw [valueClauses, if_pos hoid]
  constructor
  · rintro ⟨c, hc, hsel⟩
    rcases List.mem_append.mp hc with hc | hc
    · rcases List.mem_append.mp hc with hc | hc
      · split_ifs at hc
        · cases List.mem_singleton.mp hc
          exact hsel.elim
        · exact absurd hc List.not_mem_nil
      · cases hv : roundOid s (op = .lt ∨ op = .lte) with
        | none =>
            rw [hv] at hc
            exact absurd hc List.not_mem_nil
        | some v =>
            rw [hv] at hc
            by_cases hkeep : op ≠ .eq ∨ v = s
            · simp only [if_pos hkeep] at hc
              cases List.mem_singleton.mp hc
              exact ⟨v, rfl, hkeep, hsel⟩
            · simp only [if_neg hkeep] at hc
              exact absurd hc List.not_mem_nil
    · exact absurd hsel (htypes c hc)
  · rintro ⟨v, hv, hkeep, hsel⟩
    refine ⟨.compare param op (some (.str v)) .oid, ?_, hsel⟩
    refine List.mem_append_left _ (List.mem_append_right _ ?_)
    rw [hv]
    simp only [if_pos hkeep]
    exact List.mem_singleton_self _

/-- An id is selected as its digits compare with the text exactly for the texts where the
order is kept. -/
theorem comparison_keeps_iff {possibleTypes : List MongoType} (hoid : .oid ∈ possibleTypes)
    (param : JsString) (op : MongoOp) (s : JsString) :
    (∀ o, IsOid o → ((∃ c ∈ valueClauses possibleTypes param op (.str s)
        ++ typeClauses possibleTypes param op (.str s), c.SelectsOid o)
      ↔ op.holds ((Value.str o).compare (.str s)) = true))
    ↔ KeepsOrder s op := by
  rw [← keeps_iff_keepsOrder]
  exact forall₂_congr fun o _ => iff_congr (selectsOid_iff hoid param op s o) Iff.rfl

/-- For the ids of tasks. -/
theorem comparison_keeps_tasks :
    (∀ o, IsOid o → ((∃ c ∈ valueClauses [.oid] (js "_id") .gt (.str (js "a"))
        ++ typeClauses [.oid] (js "_id") .gt (.str (js "a")), c.SelectsOid o)
      ↔ MongoOp.gt.holds ((Value.str o).compare (.str (js "a"))) = true))
    ↔ KeepsOrder (js "a") .gt :=
  comparison_keeps_iff (List.mem_singleton_self _) (js "_id") .gt (js "a")

/-- Every id comes behind the empty text, which is rounded down to none. -/
theorem comparison_misses_all :
    IsOid (padOid []) ∧ MongoOp.gt.holds ((Value.str (padOid [])).compare (.str [])) = true
      ∧ ¬ ∃ c ∈ valueClauses [.oid] (js "_id") .gt (.str [])
        ++ typeClauses [.oid] (js "_id") .gt (.str []), c.SelectsOid (padOid []) := by
  refine ⟨(padOid_isOid (fun _ h => absurd h List.not_mem_nil) (Nat.zero_le _)).1, rfl, ?_⟩
  have hnum : roundedNum [] false = -1 := by
    rw [roundedNum_down]
    rfl
  have hround := roundOid_eq [] false
  rw [hnum, if_neg (by decide)] at hround
  rw [selectsOid_iff (List.mem_singleton_self _)]
  rintro ⟨v, hv, -⟩
  exact nomatch hround.symm.trans hv

end GenieAcs
