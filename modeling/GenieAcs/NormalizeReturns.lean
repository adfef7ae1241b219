import GenieAcs.NormalizeCompare
import Mathlib.Data.List.TakeWhile

/-!
# When normalising returns

A list of branches with no result left cannot be shortened, a polynomial with a coefficient
that is no fraction cannot be printed, and a literal pattern has to be a string. Where no
polynomial is divided by a constant 0, all coefficients are fractions, and `normalize`
returns if and only if each list keeps a result and each pattern is one.
-/

namespace GenieAcs

variable {J : Js}

/-! ## Printing -/

theorem productOf_ne_null {es : List Expr} (h : ∀ e ∈ es, e ≠ Expr.null) :
    productOf es ≠ Expr.null := by
  match es, h with
  | [], _ => exact fun heq => nomatch heq
  | [e], h => exact h e List.mem_cons_self
  | e :: e' :: es, _ => exact fun heq => nomatch heq

theorem powerFactors_ne_null {kw : Expr × ℤ} (h : kw.1 ≠ Expr.null) :
    ∀ e ∈ Polynomial.powerFactors kw, e ≠ Expr.null := by
  intro e he
  rw [List.eq_of_mem_replicate he]
  split_ifs
  · exact h
  · exact fun heq => nomatch heq

theorem termExpression_ok {t : Term} (ht : t.Sound J) :
    ∃ e, Polynomial.termExpression t = .ok e ∧ e ≠ Expr.null := by
  cases hi : t.indeterminates with
  | nil =>
      refine ⟨.lit (some (.num (t.coefficientNumerator / t.coefficientDenominator))), ?_,
        fun heq => nomatch heq⟩
      rw [Polynomial.termExpression, if_neg ht.denominator, hi]
      rfl
  | cons kw a =>
      have hne : t.indeterminates ≠ [] := by
        rw [hi]
        exact List.cons_ne_nil _ _
      refine ⟨_, termExpression_eq ht.denominator hne, productOf_ne_null fun e he => ?_⟩
      rcases List.mem_append.mp he with he | he
      · obtain ⟨kw', hkw', he⟩ := List.mem_flatMap.mp he
        exact powerFactors_ne_null (ht.indeterminates.keys kw' hkw') e he
      · unfold coefficientFactor at he
        split_ifs at he
        · rw [List.mem_singleton.mp he]
          exact fun heq => nomatch heq
        · cases he

theorem toExpression_ok {p : Polynomial} (hp : p.Sound J) :
    ∃ e, p.toExpression = .ok e ∧ e ≠ Expr.null := by
  obtain ⟨es, hes, hall⟩ := mapM_ok fun t ht => termExpression_ok (hp t ht)
  rw [Polynomial.toExpression, hes]
  rcases es with - | ⟨e, - | ⟨e', es⟩⟩
  · exact ⟨_, rfl, by simp [Expr.null]⟩
  · exact ⟨e, rfl, forall_mem_of_forall₂ hall e List.mem_cons_self⟩
  · exact ⟨_, rfl, by simp [Expr.null]⟩

/-! ## Arguments -/

/-- A polynomial that can be printed. -/
def Arm.Sound (J : Js) : Arm → Prop
  | .expr _ => True
  | .poly p => p.Sound J

theorem isNull_iff {a : Arm} : a.isNull = true ↔ a = .expr Expr.null := by
  unfold Arm.isNull
  split
  · exact iff_of_true rfl rfl
  · rename_i hne
    exact iff_of_false (fun h => nomatch h) hne

theorem Arm.Sound.restore {a : Arm} (ha : a.Sound J) :
    ∃ e, a.restore = .ok e ∧ (e = Expr.null ↔ a.isNull = true) := by
  cases a with
  | expr e =>
      refine ⟨e, rfl, ?_⟩
      rw [isNull_iff, Arm.expr.injEq]
  | poly p =>
      obtain ⟨e, he, hne⟩ := toExpression_ok ha
      exact ⟨e, he, iff_of_false hne fun h => nomatch isNull_iff.mp h⟩

theorem restore_args {as : List Arm} (has : ∀ a ∈ as, a.Sound J) :
    ∃ es, as.mapM Arm.restore = .ok es
      ∧ List.Forall₂ (fun a e => e = Expr.null ↔ a.isNull = true) as es :=
  mapM_ok fun a ha => (has a ha).restore

theorem toPolynomial_eq_none {a : Arm} : toPolynomial J a = none ↔ a.isNull = true := by
  rw [isNull_iff]
  unfold toPolynomial
  split
  · exact iff_of_false (fun h => nomatch h) fun h => nomatch h
  · exact iff_of_true rfl rfl
  · exact iff_of_false (fun h => nomatch h) fun h => nomatch h
  · rename_i hnull _
    exact iff_of_false (fun h => nomatch h) fun heq => hnull (Arm.expr.inj heq)

theorem toPolynomial_sound {a : Arm} (ha : a.Sound J) {p : Polynomial}
    (h : toPolynomial J a = some p) : p.Sound J := by
  have hnull : a ≠ .expr Expr.null := by
    rintro rfl
    cases h
  unfold toPolynomial at h
  split at h
  · cases h
    exact ha
  · cases h
  · cases h
    exact Polynomial.fromConstant_sound _
  · cases h
    exact Polynomial.fromIndeterminate_sound fun heq => hnull (congrArg Arm.expr heq)

theorem toPolynomials_eq_none {as : List Arm} :
    toPolynomials J as = none ↔ ∃ a ∈ as, a.isNull = true := by
  unfold toPolynomials
  induction as with
  | nil => exact iff_of_false (fun h => nomatch h) fun ⟨a, ha, _⟩ => nomatch ha
  | cons a as ih =>
      rw [List.mapM_cons, List.exists_mem_cons_iff, ← ih, ← toPolynomial_eq_none (J := J)]
      cases toPolynomial J a with
      | none => exact iff_of_true rfl (Or.inl rfl)
      | some p =>
          cases List.mapM (toPolynomial J) as with
          | none => exact iff_of_true rfl (Or.inr rfl)
          | some ps => exact iff_of_false (fun h => nomatch h) (by simp)

theorem toPolynomials_sound {as : List Arm} (has : ∀ a ∈ as, a.Sound J) {ps : List Polynomial}
    (h : toPolynomials J as = some ps) : ps.length = as.length ∧ ∀ p ∈ ps, p.Sound J := by
  unfold toPolynomials at h
  induction as generalizing ps with
  | nil =>
      cases h
      exact ⟨rfl, fun _ h => nomatch h⟩
  | cons a as ih =>
      rw [List.mapM_cons] at h
      cases ha : toPolynomial J a with
      | none =>
          rw [ha] at h
          cases h
      | some p =>
          cases hps : List.mapM (toPolynomial J) as with
          | none =>
              rw [ha, hps] at h
              cases h
          | some ps' =>
              rw [ha, hps] at h
              cases h
              obtain ⟨hlen, hsound⟩ := ih (fun a ha => has a (List.mem_cons_of_mem _ ha)) hps
              refine ⟨congrArg (· + 1) hlen, List.forall_mem_cons.mpr ⟨?_, hsound⟩⟩
              exact toPolynomial_sound (has a List.mem_cons_self) ha

/-! ## Arithmetic -/

theorem foldlM_ok {f : Polynomial → Polynomial → Except JsError Polynomial} {qs : List Polynomial}
    {p : Polynomial} (hp : p.Sound J)
    (hf : ∀ q ∈ qs, ∀ p, Polynomial.Sound J p → ∃ r, f p q = .ok r ∧ r.Reduced J) :
    ∃ r, qs.foldlM f p = .ok r ∧ Polynomial.Sound J r := by
  induction qs generalizing p with
  | nil => exact ⟨p, rfl, hp⟩
  | cons q qs ih =>
      obtain ⟨r, hr, hreduced⟩ := hf q List.mem_cons_self p hp
      obtain ⟨r', hr', hsound⟩ := ih hreduced.sound fun q hq => hf q (List.mem_cons_of_mem _ hq)
      exact ⟨r', by rw [List.foldlM_cons]; exact bind_ok hr hr', hsound⟩

/-- A result of an operator: it can be printed, and it is null in the case `null` alone. -/
def Yields (J : Js) (x : Except JsError Arm) (null : Prop) : Prop :=
  ∃ a, x = .ok a ∧ a.Sound J ∧ (a.isNull = true ↔ null)

variable {as : List Arm} {f : Polynomial → Polynomial → Except JsError Polynomial}

theorem arithmetic_identity_yields {identity : Polynomial} (hidentity : identity.Sound J)
    (has : ∀ a ∈ as, a.Sound J)
    (hf : ∀ p q, Polynomial.Sound J p → Polynomial.Sound J q →
      ∃ r, f p q = .ok r ∧ Polynomial.Reduced J r) :
    Yields J (normalizeArithmetic J f (some identity) as) (∃ a ∈ as, a.isNull = true) := by
  unfold normalizeArithmetic
  cases hps : toPolynomials J as with
  | none => exact ⟨_, rfl, trivial, iff_of_true rfl (toPolynomials_eq_none.mp hps)⟩
  | some ps =>
      obtain ⟨-, hsound⟩ := toPolynomials_sound has hps
      obtain ⟨r, hr, hrsound⟩ := foldlM_ok hidentity fun q hq p hp => hf p q hp (hsound q hq)
      refine ⟨.poly r, bind_ok hr rfl, hrsound, iff_of_false (fun h => nomatch h) fun h => ?_⟩
      rw [toPolynomials_eq_none.mpr h] at hps
      cases hps

theorem arithmetic_first_yields (hne : as ≠ []) (has : ∀ a ∈ as, a.Sound J)
    (hf : ∀ p qs, toPolynomials J as = some (p :: qs) → ∀ q ∈ qs, ∀ p, Polynomial.Sound J p →
      Polynomial.Sound J q → ∃ r, f p q = .ok r ∧ Polynomial.Reduced J r) :
    Yields J (normalizeArithmetic J f none as) (∃ a ∈ as, a.isNull = true) := by
  unfold normalizeArithmetic
  cases hps : toPolynomials J as with
  | none => exact ⟨_, rfl, trivial, iff_of_true rfl (toPolynomials_eq_none.mp hps)⟩
  | some ps =>
      obtain ⟨hlen, hsound⟩ := toPolynomials_sound has hps
      cases ps with
      | nil => exact absurd (List.length_eq_zero_iff.mp hlen.symm) hne
      | cons p qs =>
          obtain ⟨hp, hqs⟩ := List.forall_mem_cons.mp hsound
          obtain ⟨r, hr, hrsound⟩ :=
            foldlM_ok hp fun q hq p hp => hf _ qs hps q hq p hp (hqs q hq)
          refine ⟨.poly r, bind_ok hr rfl, hrsound, iff_of_false (fun h => nomatch h) fun h => ?_⟩
          rw [toPolynomials_eq_none.mpr h] at hps
          cases hps

/-! ## Comparisons -/

/-- A side of a comparison as a polynomial. -/
theorem side_sound {a : Arm} (ha : a.Sound J) (hnull : a.isNull = false) :
    ((polynomialSide a).getD (indeterminateSide a)).Sound J := by
  have hkey : ∀ e, a = .expr e → (Polynomial.fromIndeterminate e).Sound J := by
    rintro e rfl
    refine Polynomial.fromIndeterminate_sound fun heq => ?_
    rw [isNull_iff.mpr (congrArg Arm.expr heq)] at hnull
    cases hnull
  unfold polynomialSide
  split
  · exact ha
  · exact Polynomial.fromConstant_sound _
  · exact hkey _ rfl

theorem getD_sound {i : Nat} (has : ∀ a ∈ as, a.Sound J) :
    (as.getD i (.expr Expr.null)).Sound J := by
  rw [List.getD_eq_getElem?_getD]
  cases hi : as[i]? with
  | none => trivial
  | some a => exact has a (List.mem_of_getElem? hi)

/-- What is compared by value is null only where a side is. -/
theorem evaluateCompare_null {op : Op} {es : List Expr} :
    evaluateCompare op es = Expr.null ↔ arg es 0 = Expr.null ∨ arg es 1 = Expr.null := by
  unfold evaluateCompare
  split
  · rename_i h
    exact iff_of_true rfl (Or.inl h)
  · rename_i h _
    exact iff_of_true rfl (Or.inr h)
  · rename_i h₀ h₁
    rw [h₀, h₁]
    exact iff_of_false (fun h => nomatch h) (by rintro (h | h) <;> cases h)
  · rename_i h₀ h₁ _
    exact iff_of_false (fun h => nomatch h) (by rintro (h | h) <;> contradiction)

theorem restore_compare_yields {op : Op} (hop : op.IsCompare) (has : ∀ a ∈ as, a.Sound J) :
    Yields J (restoreAndEvaluate J op as) ((as.getD 0 (.expr Expr.null)).isNull = true
      ∨ (as.getD 1 (.expr Expr.null)).isNull = true) := by
  obtain ⟨es, hes, hall⟩ := restore_args has
  have harg : ∀ i, arg es i = Expr.null ↔ (as.getD i (.expr Expr.null)).isNull = true := by
    intro i
    clear has hes
    unfold arg
    induction hall generalizing i with
    | nil => exact iff_of_true rfl rfl
    | cons hab _ ih =>
        cases i with
        | zero => exact hab
        | succ i => exact ih i
  refine ⟨.expr (evaluateCompare op es), ?_, trivial, ?_⟩
  · exact bind_ok hes (bind_ok (evaluateCallback_compare hop es) rfl)
  · rw [isNull_iff, Arm.expr.injEq, evaluateCompare_null, harg, harg]

/-- What `compareSides` leaves is a literal or two polynomials that can be printed. -/
theorem compareSides_ok {op : Op} (hop : op.IsCompare) {lhs rhs : Polynomial} (hl : lhs.Sound J)
    (hr : rhs.Sound J) :
    (∃ b, compareSides J op lhs rhs = .ok (.inl (Expr.ofBool b)))
      ∨ ∃ op' l r, compareSides J op lhs rhs = .ok (.inr (op', l, r)) ∧ op'.IsCompare
        ∧ Polynomial.Sound J l ∧ Polynomial.Sound J r := by
  obtain ⟨l, r, hmove, hlr, hrr, hconst⟩ := moveConstants_ok hl hr
  cases l with
  | nil => exact Or.inl ⟨_, @compareSides_nil J (fun _ => 0) _ _ _ _ hmove hrr hconst⟩
  | cons t ts =>
      right
      have hn := hlr.nonzero t List.mem_cons_self
      have hd := (hlr.sound t List.mem_cons_self).denominator
      obtain ⟨l', hlmul, hlr', hlinds⟩ := hlr.multiply_constant hd hn
      obtain ⟨r', hrmul, hrr', -⟩ := hrr.multiply_constant hd hn
      have hne : l' ≠ [] := by
        rintro rfl
        cases hlinds
      have hop' := isCompare_turned hop t.flips
      rw [compareSides_eq hmove rfl hlmul hrmul hne]
      cases inverts l' with
      | true =>
          exact ⟨_, _, _, rfl, hop'.swapped,
            Polynomial.Sound.reciprocal hlr'.sound hlr'.nonzero,
            Polynomial.Sound.reciprocal hrr'.sound hrr'.nonzero⟩
      | false => exact ⟨_, _, _, rfl, hop', hlr'.sound, hrr'.sound⟩

theorem compare_yields {op : Op} (hop : op.IsCompare) (has : ∀ a ∈ as, a.Sound J) :
    Yields J (normalizeCompare J op as) ((as.getD 0 (.expr Expr.null)).isNull = true
      ∨ (as.getD 1 (.expr Expr.null)).isNull = true) := by
  have h0 := @getD_sound J as 0 has
  have h1 := @getD_sound J as 1 has
  have hrest := @restore_compare_yields J as op hop has
  unfold normalizeCompare
  generalize as.getD 0 (.expr Expr.null) = a at h0 hrest ⊢
  generalize as.getD 1 (.expr Expr.null) = b at h1 hrest ⊢
  simp only
  by_cases hnull : a.isNull = true ∨ b.isNull = true
  · rw [if_pos hnull]
    exact ⟨_, rfl, trivial, iff_of_true rfl hnull⟩
  · rw [if_neg hnull]
    by_cases hside : (polynomialSide a).isSome = true ∨ (polynomialSide b).isSome = true
    · rw [if_pos hside]
      obtain ⟨ha, hb⟩ := not_or.mp hnull
      rcases compareSides_ok hop (side_sound h0 (Bool.eq_false_of_not_eq_true ha))
        (side_sound h1 (Bool.eq_false_of_not_eq_true hb)) with
        ⟨c, hc⟩ | ⟨op', l, r, hc, hop', hl, hr⟩
      · exact ⟨_, bind_ok hc rfl, trivial, iff_of_false (fun h => nomatch h) hnull⟩
      · have hsides : ∀ c ∈ [Arm.poly l, .poly r], c.Sound J :=
          List.forall_mem_cons.mpr ⟨hl, List.forall_mem_singleton.mpr hr⟩
        obtain ⟨d, hd, hdsound, hdnull⟩ := restore_compare_yields hop' hsides
        refine ⟨d, bind_ok hc hd, hdsound, iff_of_false (fun h => ?_) hnull⟩
        rcases hdnull.mp h with h | h <;> cases h
    · rw [if_neg hside]
      exact hrest

/-! ## The other operators -/

/-- LIKE of literals, the pattern of which is no string. -/
def Unmatchable (es : List Expr) : Prop :=
  ∃ subject pat esc, arg es 0 = .lit (some subject) ∧ arg es 1 = .lit (some pat)
    ∧ arg es 2 = .lit esc ∧ (3 ≤ es.length → esc ≠ none) ∧ ∀ s, pat ≠ .str s

theorem evaluateLike_ok_iff {op : Op} {negate : Bool} {es : List Expr} :
    (∃ e, evaluateLike J op negate es = .ok e) ↔ ¬ Unmatchable es := by
  unfold evaluateLike Unmatchable
  split
  · rename_i h₀ h₁ h₂
    rw [h₀, h₁, h₂]
    split_ifs with hesc
    · refine iff_of_true ⟨_, rfl⟩ ?_
      rintro ⟨_, _, _, -, -, h, hne, -⟩
      cases h
      exact hne hesc.1 hesc.2
    · split
      · refine iff_of_true ⟨_, rfl⟩ ?_
        rintro ⟨_, _, _, h, -⟩
        cases h
      · refine iff_of_true ⟨_, rfl⟩ ?_
        rintro ⟨_, _, _, -, h, -⟩
        cases h
      · refine iff_of_true ⟨_, rfl⟩ ?_
        rintro ⟨_, _, _, -, h, -, -, hstr⟩
        cases h
        exact hstr _ rfl
      · rename_i hstr
        refine iff_of_false (fun ⟨e, he⟩ => nomatch he) (not_not.mpr ?_)
        exact ⟨_, _, _, rfl, rfl, rfl, fun hlen hnone => hesc ⟨hlen, hnone⟩, fun s => hstr s⟩
  · rename_i hlit
    refine iff_of_true ⟨_, rfl⟩ ?_
    rintro ⟨_, _, _, h₀, h₁, h₂, -⟩
    exact hlit _ _ _ h₀ h₁ h₂

/-- Only LIKE and NOT LIKE throw. -/
theorem evaluateCallback_ok_iff {op : Op} {es : List Expr} :
    (∃ e, evaluateCallback J op es = .ok e) ↔ (op = .like ∨ op = .notLike → ¬ Unmatchable es) := by
  cases op with
  | like => exact evaluateLike_ok_iff.trans ⟨fun h _ => h, fun h => h (Or.inl rfl)⟩
  | notLike => exact evaluateLike_ok_iff.trans ⟨fun h _ => h, fun h => h (Or.inr rfl)⟩
  | _ => exact iff_of_true ⟨_, rfl⟩ fun h => by rcases h with h | h <;> cases h

/-! ## One operator -/

/-- What an operator asks of its arguments: `-` and `/` begin with one, and a literal pattern
is a string. -/
def PlainFits (op : Op) (as : List Arm) : Prop :=
  match op with
  | .sub => as ≠ []
  | .div => as ≠ []
  | .like => ∀ es, as.mapM Arm.restore = .ok es → ¬ Unmatchable es
  | .notLike => ∀ es, as.mapM Arm.restore = .ok es → ¬ Unmatchable es
  | _ => True

/-- No polynomial is divided by one with a coefficient 0, that is by the constant. -/
def DivisorsFit (J : Js) (op : Op) (as : List Arm) : Prop :=
  op = .div → ∀ p qs, toPolynomials J as = some (p :: qs) →
    ∀ q ∈ qs, ∀ t ∈ q, t.coefficientNumerator ≠ 0

/-- When the result of an operator is null. -/
def NullResult (J : Js) (op : Op) (as : List Arm) : Prop :=
  if op = .add ∨ op = .sub ∨ op = .mul ∨ op = .div then ∃ a ∈ as, a.isNull = true
  else ∃ es, as.mapM Arm.restore = .ok es ∧ evaluateCallback J op es = .ok Expr.null

theorem restore_yields {op : Op} (has : ∀ a ∈ as, a.Sound J)
    (hfits : op = .like ∨ op = .notLike →
      ∀ es, as.mapM Arm.restore = .ok es → ¬ Unmatchable es) :
    Yields J (restoreAndEvaluate J op as)
      (∃ es, as.mapM Arm.restore = .ok es ∧ evaluateCallback J op es = .ok Expr.null) := by
  obtain ⟨es, hes, -⟩ := restore_args has
  obtain ⟨e, he⟩ := evaluateCallback_ok_iff.mpr fun hop => hfits hop es hes
  refine ⟨.expr e, bind_ok hes (bind_ok he rfl), trivial, ?_⟩
  rw [isNull_iff, Arm.expr.injEq]
  constructor
  · rintro rfl
    exact ⟨es, hes, he⟩
  · rintro ⟨es', hes', he'⟩
    cases hes.symm.trans hes'
    exact Except.ok.inj (he.symm.trans he')

/-- A comparison is null where its sides, printed, are compared to null. -/
theorem compare_null {op : Op} (hop : op.IsCompare) (has : ∀ a ∈ as, a.Sound J) :
    ((as.getD 0 (.expr Expr.null)).isNull = true ∨ (as.getD 1 (.expr Expr.null)).isNull = true)
      ↔ ∃ es, as.mapM Arm.restore = .ok es ∧ evaluateCallback J op es = .ok Expr.null := by
  have hlike : op = .like ∨ op = .notLike → False := by
    rintro (rfl | rfl) <;> cases hop
  obtain ⟨a, ha, -, hnull⟩ := restore_compare_yields hop has
  obtain ⟨a', ha', -, hnull'⟩ := restore_yields has fun h => (hlike h).elim
  cases ha.symm.trans ha'
  exact hnull.symm.trans hnull'

theorem plain_yields {op : Op} (has : ∀ a ∈ as, a.Sound J) (hfits : PlainFits op as)
    (hdiv : DivisorsFit J op as) : Yields J (normalizePlain J op as) (NullResult J op as) := by
  have hcompare : ∀ op : Op, op.IsCompare → Yields J (normalizeCompare J op as)
      (∃ es, as.mapM Arm.restore = .ok es ∧ evaluateCallback J op es = .ok Expr.null) := by
    intro op hop
    obtain ⟨a, ha, hsound, hnull⟩ := compare_yields hop has
    exact ⟨a, ha, hsound, hnull.trans (compare_null hop has)⟩
  cases op with
  | add =>
      exact arithmetic_identity_yields (Polynomial.fromConstant_sound 0) has fun _ _ hp hq =>
        Polynomial.add_ok hp hq
  | mul =>
      exact arithmetic_identity_yields (Polynomial.fromConstant_sound 1) has fun _ _ hp hq =>
        Polynomial.multiply_ok hp hq
  | sub =>
      exact arithmetic_first_yields hfits has fun _ _ _ _ _ _ hp hq => Polynomial.subtract_ok hp hq
  | div =>
      exact arithmetic_first_yields hfits has fun p qs hps q hq _ hp hqs =>
        Polynomial.divide_ok hp hqs (hdiv rfl p qs hps q hq)
  | eq => exact hcompare _ .eq
  | ne => exact hcompare _ .ne
  | gt => exact hcompare _ .gt
  | ge => exact hcompare _ .ge
  | lt => exact hcompare _ .lt
  | le => exact hcompare _ .le
  | like => exact restore_yields has fun _ => hfits
  | notLike => exact restore_yields has fun _ => hfits
  | _ => exact restore_yields has fun h => by rcases h with h | h <;> cases h

/-- Where an operator returns, its arguments fit. -/
theorem fits_of_plain {op : Op} {a : Arm} (h : normalizePlain J op as = .ok a) :
    PlainFits op as := by
  have hlike : ∀ op : Op, op = .like ∨ op = .notLike → restoreAndEvaluate J op as = .ok a →
      ∀ es, as.mapM Arm.restore = .ok es → ¬ Unmatchable es := by
    intro op hop hrun es hes
    obtain ⟨es', hes', hrun⟩ := bind_eq_ok_iff.mp hrun
    obtain ⟨e, he, -⟩ := bind_eq_ok_iff.mp hrun
    cases hes.symm.trans hes'
    exact evaluateCallback_ok_iff.mp ⟨e, he⟩ hop
  cases op with
  | sub =>
      rintro rfl
      cases h
  | div =>
      rintro rfl
      cases h
  | like => exact hlike .like (Or.inl rfl) h
  | notLike => exact hlike .notLike (Or.inr rfl) h
  | _ => trivial

/-! ## Lists of branches -/

def NExpr.Sound (J : Js) : NExpr → Prop
  | .arm a => a.Sound J
  | .case arms => ∀ r ∈ arms, r.2.Sound J

variable {ns : List NExpr}

/-- Trailing nulls can go if there is something else. -/
theorem popNulls_ok_iff {res : List (Expr × Arm)} :
    (∃ res', popNulls res = .ok res') ↔ ∃ r ∈ res, r.2.isNull = false := by
  have hempty : (res.reverse.dropWhile fun r => r.2.isNull).reverse = []
      ↔ ∀ r ∈ res, r.2.isNull = true := by
    rw [List.reverse_eq_nil_iff, List.dropWhile_eq_nil_iff]
    simp only [List.mem_reverse]
  unfold popNulls
  split
  · rename_i hnil
    refine iff_of_false (fun ⟨res', h⟩ => nomatch h) ?_
    rintro ⟨r, hr, hnull⟩
    rw [hempty.mp hnil r hr] at hnull
    cases hnull
  · rename_i hne
    refine iff_of_true ⟨_, rfl⟩ ?_
    by_contra hall
    refine hne (hempty.mpr fun r hr => ?_)
    by_contra hnull
    exact hall ⟨r, hr, Bool.eq_false_of_not_eq_true hnull⟩

theorem mem_of_popNulls {res res' : List (Expr × Arm)} (h : popNulls res = .ok res') :
    ∀ r ∈ res', r ∈ res := by
  intro r hr
  unfold popNulls at h
  split at h
  · cases h
  · rw [← Except.ok.inj h, List.mem_reverse] at hr
    exact List.mem_reverse.mp (List.dropWhile_sublist _ |>.mem hr)

theorem mem_branches {arms : List (Expr × Arm)} {r : Expr × Arm} (h : r ∈ branches arms) :
    r ∈ arms ++ [(Expr.ofBool true, .expr Expr.null)] := by
  unfold branches at h
  rcases List.mem_append.mp h with h | h
  · exact List.takeWhile_subset _ h
  · exact List.mem_of_mem_drop (List.mem_of_mem_take h)

theorem branches_ne_nil (arms : List (Expr × Arm)) : branches arms ≠ [] := by
  unfold branches
  simp only
  intro h
  obtain ⟨hbefore, hrest⟩ := List.append_eq_nil_iff.mp h
  rw [hbefore, List.length_nil, List.drop_zero] at hrest
  have hlen := congrArg List.length hrest
  simp at hlen

/-- One more argument keeps what holds of every choice of branches. -/
theorem addArgument_sound {n : NExpr} {res : List (Expr × List Arm)} (hn : n.Sound J)
    (hne : res ≠ []) (hres : ∀ r ∈ res, ∀ a ∈ r.2, a.Sound J) :
    addArgument res n ≠ [] ∧ ∀ r ∈ addArgument res n, ∀ a ∈ r.2, a.Sound J := by
  have happend : ∀ r ∈ res, ∀ a, a.Sound J → ∀ b ∈ r.2 ++ [a], b.Sound J := by
    intro r hr a ha b hb
    rcases List.mem_append.mp hb with hb | hb
    · exact hres r hr b hb
    · rw [List.mem_singleton.mp hb]
      exact ha
  cases n with
  | arm a =>
      refine ⟨fun h => hne (List.map_eq_nil_iff.mp h), fun r hr => ?_⟩
      obtain ⟨r', hr', rfl⟩ := List.mem_map.mp hr
      exact happend r' hr' a hn
  | case arms =>
      constructor
      · obtain ⟨wt, hwt⟩ := List.exists_mem_of_ne_nil _ (branches_ne_nil arms)
        obtain ⟨r, hr⟩ := List.exists_mem_of_ne_nil _ hne
        exact List.ne_nil_of_mem (List.mem_flatMap.mpr ⟨wt, hwt, List.mem_map_of_mem hr⟩)
      · intro r hr
        obtain ⟨wt, hwt, hr⟩ := List.mem_flatMap.mp hr
        obtain ⟨r', hr', rfl⟩ := List.mem_map.mp hr
        refine happend r' hr' wt.2 ?_
        rcases List.mem_append.mp (mem_branches hwt) with h | h
        · exact hn wt h
        · rw [List.mem_singleton.mp h]
          trivial

/-- There is a choice of branches, and what is chosen can be printed. -/
theorem permutations_sound (hns : ∀ n ∈ ns, n.Sound J) :
    permutations ns ≠ [] ∧ ∀ r ∈ permutations ns, ∀ a ∈ r.2, a.Sound J := by
  have hfold : ∀ res : List (Expr × List Arm), res ≠ [] → (∀ r ∈ res, ∀ a ∈ r.2, a.Sound J) →
      ns.foldl addArgument res ≠ [] ∧ ∀ r ∈ ns.foldl addArgument res, ∀ a ∈ r.2, a.Sound J := by
    induction ns with
    | nil => exact fun res hne hres => ⟨hne, hres⟩
    | cons n ns ih =>
        intro res hne hres
        obtain ⟨hne', hres'⟩ := addArgument_sound (hns n List.mem_cons_self) hne hres
        exact ih (fun n hn => hns n (List.mem_cons_of_mem _ hn)) _ hne' hres'
  rw [permutations_eq]
  refine hfold _ (List.cons_ne_nil _ _) fun r hr a ha => ?_
  rw [List.mem_singleton.mp hr] at ha
  cases ha

/-! ## An operator over CASE -/

/-- Every choice of branches fits, and a CASE that is moved out of the operator keeps a result. -/
def KeepsArgs (J : Js) (op : Op) (ns : List NExpr) : Prop :=
  (∀ r ∈ permutations ns, PlainFits op r.2)
    ∧ ((permutations ns).head?.map (·.1) = some (Expr.ofBool true)
      ∨ ∃ r ∈ permutations ns, ¬ NullResult J op r.2)

/-- The results for each choice of branches. -/
theorem normalizePermutations_ok {op : Op} (hns : ∀ n ∈ ns, n.Sound J)
    (hdiv : ∀ r ∈ permutations ns, DivisorsFit J op r.2)
    (hfits : ∀ r ∈ permutations ns, PlainFits op r.2) :
    ∃ res, (permutations ns).mapM (fun r => do
        let a ← normalizePlain J op r.2
        pure (r.1, a)) = .ok res
      ∧ List.Forall₂ (fun r wa => wa.1 = r.1 ∧ wa.2.Sound J
        ∧ (wa.2.isNull = true ↔ NullResult J op r.2)) (permutations ns) res := by
  refine mapM_ok fun r hr => ?_
  obtain ⟨a, ha, hsound, hnull⟩ :=
    plain_yields ((permutations_sound hns).2 r hr) (hfits r hr) (hdiv r hr)
  exact ⟨(r.1, a), bind_ok ha rfl, rfl, hsound, hnull⟩

theorem normalizeArgs_ok {op : Op} (hns : ∀ n ∈ ns, n.Sound J)
    (hdiv : ∀ r ∈ permutations ns, DivisorsFit J op r.2) (hkeeps : KeepsArgs J op ns) :
    ∃ n, normalizeArgs J op ns = .ok n ∧ n.Sound J := by
  obtain ⟨res, hres, hall⟩ := normalizePermutations_ok hns hdiv hkeeps.1
  have hsound : ∀ wa ∈ res, wa.2.Sound J := by
    intro wa hwa
    obtain ⟨r, -, -, h, -⟩ := exists_left_of_forall₂ hall hwa
    exact h
  unfold normalizeArgs
  cases res with
  | nil => exact absurd (List.forall₂_nil_right_iff.mp hall) (permutations_sound hns).1
  | cons wa res =>
      obtain ⟨w, a⟩ := wa
      by_cases hw : w = Expr.ofBool true
      · refine ⟨.arm a, bind_ok hres (if_pos hw), hsound (w, a) List.mem_cons_self⟩
      · have hkept : ∃ wa ∈ (w, a) :: res, wa.2.isNull = false := by
          rcases hkeeps.2 with hhead | ⟨r, hr, hnull⟩
          · exfalso
            cases hperm : permutations ns with
            | nil => exact (permutations_sound hns).1 hperm
            | cons r rest =>
                rw [hperm] at hhead hall
                have hfirst := (List.forall₂_cons.mp hall).1.1
                exact hw (hfirst.trans (Option.some.inj hhead))
          · obtain ⟨wa, hwa, -, -, hiff⟩ := exists_right_of_forall₂ hall hr
            exact ⟨wa, hwa, Bool.eq_false_of_not_eq_true fun h => hnull (hiff.mp h)⟩
        obtain ⟨res', hres'⟩ := popNulls_ok_iff.mpr hkept
        refine ⟨.case res', bind_ok hres ((if_neg hw).trans (bind_ok hres' rfl)), ?_⟩
        exact fun r hr => hsound r (mem_of_popNulls hres' r hr)

theorem keepsArgs_of_ok {op : Op} {n : NExpr} (hns : ∀ n ∈ ns, n.Sound J)
    (hdiv : ∀ r ∈ permutations ns, DivisorsFit J op r.2) (h : normalizeArgs J op ns = .ok n) :
    KeepsArgs J op ns := by
  obtain ⟨res, hres, h⟩ := bind_eq_ok_iff.mp h
  have hfits : ∀ r ∈ permutations ns, PlainFits op r.2 := by
    intro r hr
    obtain ⟨wa, -, hwa⟩ := exists_right_of_forall₂ (mapM_results hres) hr
    obtain ⟨a, ha, -⟩ := bind_eq_ok_iff.mp hwa
    exact fits_of_plain ha
  refine ⟨hfits, ?_⟩
  obtain ⟨res', hres', hall⟩ := normalizePermutations_ok hns hdiv hfits
  cases hres.symm.trans hres'
  cases hperm : permutations ns with
  | nil => exact absurd hperm (permutations_sound hns).1
  | cons r rest =>
      rw [hperm] at hall
      obtain ⟨⟨w, a⟩, res, ⟨hw, -⟩, -, rfl⟩ := List.forall₂_cons_left_iff.mp hall
      by_cases htrue : w = Expr.ofBool true
      · left
        exact congrArg some (hw.symm.trans htrue)
      · right
        obtain ⟨res', hres', -⟩ := bind_eq_ok_iff.mp ((if_neg htrue).symm.trans h)
        obtain ⟨wa, hwa, hnull⟩ := popNulls_ok_iff.mp ⟨res', hres'⟩
        obtain ⟨r', hr', -, -, hiff⟩ := exists_left_of_forall₂ hall hwa
        refine ⟨r', hr', fun hresult => ?_⟩
        rw [hiff.mpr hresult] at hnull
        cases hnull

/-! ## CASE -/

/-- Some result that is not null is under a condition that is not false, and not behind a
CASE whose condition is true. -/
def KeepsResult : List NExpr → Prop
  | w :: t :: rest =>
      ∃ c, toCondition w = .ok c ∧
        if !c.isArray ∧ !c.truthy then KeepsResult rest
        else match t with
          | .arm a => a.isNull = false ∨ KeepsResult rest
          | .case arms =>
              (∃ r ∈ arms, r.2.isNull = false) ∨ c.isTrueLit = false ∧ KeepsResult rest
  | _ => False

theorem toCondition_ok {n : NExpr} (hn : n.Sound J) : ∃ c, toCondition n = .ok c := by
  cases n with
  | arm a =>
      obtain ⟨c, hc, -⟩ := Arm.Sound.restore hn
      exact ⟨c, hc⟩
  | case arms => exact ⟨_, rfl⟩

/-- The branches of a CASE: they can be printed, and there is a result other than null exactly
if one is kept. -/
def YieldsArms (J : Js) (x : Except JsError (List (Expr × Arm))) (kept : Prop) : Prop :=
  ∃ res, x = .ok res ∧ (∀ r ∈ res, r.2.Sound J) ∧ ((∃ r ∈ res, r.2.isNull = false) ↔ kept)

/-- The branches a nested CASE is opened to, with the missing ELSE. -/
theorem opened_yields {arms res : List (Expr × Arm)} {w : Expr} {kept : Prop}
    (harms : ∀ r ∈ arms, r.2.Sound J) (hres : ∀ r ∈ res, r.2.Sound J)
    (hkept : (∃ r ∈ res, r.2.isNull = false) ↔ kept) :
    (∀ r ∈ arms.map (fun r => (Expr.and w r.1, r.2)) ++ [(w, .expr Expr.null)] ++ res, r.2.Sound J)
      ∧ ((∃ r ∈ arms.map (fun r => (Expr.and w r.1, r.2)) ++ [(w, .expr Expr.null)] ++ res,
          r.2.isNull = false) ↔ (∃ r ∈ arms, r.2.isNull = false) ∨ kept) := by
  constructor
  · intro r hr
    rcases List.mem_append.mp hr with hr | hr
    · rcases List.mem_append.mp hr with hr | hr
      · obtain ⟨r', hr', rfl⟩ := List.mem_map.mp hr
        exact harms r' hr'
      · rw [List.mem_singleton.mp hr]
        trivial
    · exact hres r hr
  · rw [← hkept]
    constructor
    · rintro ⟨r, hr, hnull⟩
      rcases List.mem_append.mp hr with hr | hr
      · rcases List.mem_append.mp hr with hr | hr
        · obtain ⟨r', hr', rfl⟩ := List.mem_map.mp hr
          exact Or.inl ⟨r', hr', hnull⟩
        · rw [List.mem_singleton.mp hr] at hnull
          cases hnull
      · exact Or.inr ⟨r, hr, hnull⟩
    · rintro (⟨r, hr, hnull⟩ | ⟨r, hr, hnull⟩)
      · exact ⟨(Expr.and w r.1, r.2), List.mem_append_left _ (List.mem_append_left _
          (List.mem_map_of_mem hr)), hnull⟩
      · exact ⟨r, List.mem_append_right _ hr, hnull⟩

theorem keepsResult_cons {w t : NExpr} {rest : List NExpr} {c : Expr}
    (hc : toCondition w = .ok c) : KeepsResult (w :: t :: rest) ↔
      if !c.isArray ∧ !c.truthy then KeepsResult rest
      else match t with
        | .arm a => a.isNull = false ∨ KeepsResult rest
        | .case arms =>
            (∃ r ∈ arms, r.2.isNull = false) ∨ c.isTrueLit = false ∧ KeepsResult rest := by
  rw [KeepsResult]
  constructor
  · rintro ⟨c', hc', h⟩
    cases hc.symm.trans hc'
    exact h
  · exact fun h => ⟨c, hc, h⟩

theorem caseArms_yields (ns : List NExpr) (hns : ∀ n ∈ ns, n.Sound J) :
    YieldsArms J (caseArms ns) (KeepsResult ns) := by
  induction ns using caseArms.induct with
  | case1 => exact ⟨[], rfl, fun _ h => (nomatch h), iff_of_false (fun ⟨_, h, _⟩ => nomatch h) id⟩
  | case2 w =>
      obtain ⟨c, hc⟩ := toCondition_ok (hns w List.mem_cons_self)
      by_cases hfalse : !c.isArray ∧ !c.truthy
      · exact ⟨[], bind_ok hc (if_pos hfalse), fun _ h => (nomatch h),
          iff_of_false (fun ⟨_, h, _⟩ => nomatch h) id⟩
      · refine ⟨[(c, .expr Expr.null)], bind_ok hc (if_neg hfalse), ?_, ?_⟩
        · intro r hr
          rw [List.mem_singleton.mp hr]
          trivial
        · refine iff_of_false ?_ id
          rintro ⟨r, hr, hnull⟩
          rw [List.mem_singleton.mp hr] at hnull
          cases hnull
  | case3 w t rest ih =>
      obtain ⟨hw, hns⟩ := List.forall_mem_cons.mp hns
      obtain ⟨ht, hrest⟩ := List.forall_mem_cons.mp hns
      obtain ⟨res, hres, hsound, hkept⟩ := ih hrest
      obtain ⟨c, hc⟩ := toCondition_ok hw
      unfold YieldsArms
      rw [keepsResult_cons hc]
      by_cases hfalse : !c.isArray ∧ !c.truthy
      · rw [if_pos hfalse]
        exact ⟨res, bind_ok hc ((if_pos hfalse).trans hres), hsound, hkept⟩
      · rw [if_neg hfalse]
        cases t with
        | arm a =>
            refine ⟨(c, a) :: res, bind_ok hc ((if_neg hfalse).trans (bind_ok hres rfl)),
              List.forall_mem_cons.mpr ⟨ht, hsound⟩, ?_⟩
            rw [List.exists_mem_cons_iff, hkept]
        | case arms =>
            simp only
            cases htrue : c.isTrueLit with
            | true =>
                obtain ⟨hopened, hiff⟩ := @opened_yields J arms [] c False ht
                  (fun _ h => nomatch h) (iff_of_false (fun ⟨_, h, _⟩ => nomatch h) id)
                rw [List.append_nil] at hopened hiff
                refine ⟨_, bind_ok hc ((if_neg hfalse).trans (if_pos htrue)), hopened, hiff.trans ?_⟩
                exact or_congr_right ⟨False.elim, fun h => nomatch h.1⟩
            | false =>
                obtain ⟨hopened, hiff⟩ := @opened_yields J arms res c _ ht hsound hkept
                refine ⟨_, bind_ok hc ((if_neg hfalse).trans ((if_neg ?_).trans (bind_ok hres rfl))),
                  hopened, hiff.trans ?_⟩
                · rw [htrue]
                  exact Bool.false_ne_true
                · exact or_congr_right ⟨fun h => ⟨rfl, h⟩, And.right⟩

theorem normalizeCase_ok (hns : ∀ n ∈ ns, n.Sound J) (hkeeps : KeepsResult ns) :
    ∃ n, normalizeCase ns = .ok n ∧ n.Sound J := by
  obtain ⟨res, hres, hsound, hkept⟩ := caseArms_yields ns hns
  obtain ⟨res', hres'⟩ := popNulls_ok_iff.mpr (hkept.mpr hkeeps)
  exact ⟨.case res', bind_ok hres (bind_ok hres' rfl),
    fun r hr => hsound r (mem_of_popNulls hres' r hr)⟩

theorem keepsResult_of_ok {n : NExpr} (hns : ∀ n ∈ ns, n.Sound J) (h : normalizeCase ns = .ok n) :
    KeepsResult ns := by
  obtain ⟨res, hres, -, hkept⟩ := caseArms_yields ns hns
  obtain ⟨res', hres', h⟩ := bind_eq_ok_iff.mp h
  cases hres.symm.trans hres'
  obtain ⟨res'', hpop, -⟩ := bind_eq_ok_iff.mp h
  exact hkept.mp (popNulls_ok_iff.mp ⟨res'', hpop⟩)

/-! ## COALESCE -/

/-- The conditions and results of a COALESCE as a CASE. -/
def coalesceRows (J : Js) (args : List NExpr) : Except JsError (List (List NExpr)) :=
  args.mapM fun e => do
    let w ← normalizeArgs J .isNotNull [e]
    pure [w, e]

theorem divisorsFit_of_ne {op : Op} (hop : op ≠ .div) : DivisorsFit J op as :=
  fun h => absurd h hop

/-- A test for null is never null itself. -/
theorem keepsArgs_isNotNull (hns : ∀ n ∈ ns, n.Sound J) : KeepsArgs J .isNotNull ns := by
  refine ⟨fun _ _ => trivial, Or.inr ?_⟩
  obtain ⟨r, hr⟩ := List.exists_mem_of_ne_nil _ (permutations_sound hns).1
  refine ⟨r, hr, ?_⟩
  rintro ⟨es, -, hnull⟩
  have htest : isNullTest false .isNotNull es = Expr.null := Except.ok.inj hnull
  unfold isNullTest at htest
  split at htest <;> cases htest

theorem coalesceRows_ok (hns : ∀ n ∈ ns, n.Sound J) :
    ∃ rows, coalesceRows J ns = .ok rows ∧ ∀ n ∈ rows.flatten, n.Sound J := by
  have hrow : ∀ e ∈ ns, ∃ row, (do
        let w ← normalizeArgs J .isNotNull [e]
        pure [w, e]) = (.ok row : Except JsError (List NExpr)) ∧ ∀ n ∈ row, n.Sound J := by
    intro e he
    have hsingle : ∀ n ∈ [e], n.Sound J := List.forall_mem_singleton.mpr (hns e he)
    have hop : Op.isNotNull ≠ .div := fun h => nomatch h
    obtain ⟨w, hw, hsound⟩ := normalizeArgs_ok hsingle (fun _ _ => divisorsFit_of_ne hop)
      (keepsArgs_isNotNull hsingle)
    exact ⟨[w, e], bind_ok hw rfl, List.forall_mem_cons.mpr ⟨hsound, hsingle⟩⟩
  obtain ⟨rows, hrows, hall⟩ := mapM_ok hrow
  refine ⟨rows, hrows, fun n hn => ?_⟩
  obtain ⟨row, hmem, hn⟩ := List.mem_flatten.mp hn
  exact forall_mem_of_forall₂ hall row hmem n hn

/-! ## The callback -/

/-- What each step of the walk asks of the normalised arguments. -/
def StepKeeps (J : Js) (op : Op) (ns : List NExpr) : Prop :=
  match op with
  | .case => KeepsResult ns
  | .func =>
      if isCoalesce ns then ∀ rows, coalesceRows J ns.tail = .ok rows → KeepsResult rows.flatten
      else KeepsArgs J .func ns
  | op => KeepsArgs J op ns

theorem callback_ok {op : Op} (hns : ∀ n ∈ ns, n.Sound J)
    (hdiv : ∀ r ∈ permutations ns, DivisorsFit J op r.2) (hkeeps : StepKeeps J op ns) :
    ∃ n, normalizeCallback J (.app op ns) = .ok n ∧ n.Sound J := by
  cases op with
  | case => exact normalizeCase_ok hns hkeeps
  | func =>
      unfold StepKeeps at hkeeps
      rw [normalizeCallback]
      by_cases hcoalesce : isCoalesce ns = true
      · simp only [if_pos hcoalesce] at hkeeps ⊢
        obtain ⟨rows, hrows, hsound⟩ := coalesceRows_ok fun n hn => hns n (List.mem_of_mem_tail hn)
        obtain ⟨n, hn, hnsound⟩ := normalizeCase_ok hsound (hkeeps rows hrows)
        exact ⟨n, bind_ok hrows hn, hnsound⟩
      · simp only [if_neg hcoalesce] at hkeeps ⊢
        exact normalizeArgs_ok hns hdiv hkeeps
  | _ => exact normalizeArgs_ok hns hdiv hkeeps

theorem keeps_of_callback {op : Op} {n : NExpr} (hns : ∀ n ∈ ns, n.Sound J)
    (hdiv : ∀ r ∈ permutations ns, DivisorsFit J op r.2)
    (h : normalizeCallback J (.app op ns) = .ok n) : StepKeeps J op ns := by
  cases op with
  | case => exact keepsResult_of_ok hns h
  | func =>
      unfold StepKeeps
      rw [normalizeCallback] at h
      by_cases hcoalesce : isCoalesce ns = true
      · simp only [if_pos hcoalesce] at h ⊢
        intro rows hrows
        obtain ⟨rows', hrows', hsound⟩ := coalesceRows_ok fun n hn => hns n (List.mem_of_mem_tail hn)
        cases hrows.symm.trans hrows'
        obtain ⟨rows', hrows', h⟩ := bind_eq_ok_iff.mp h
        cases hrows.symm.trans hrows'
        exact keepsResult_of_ok hsound h
      · simp only [if_neg hcoalesce] at h ⊢
        exact keepsArgs_of_ok hns hdiv h
  | _ => exact keepsArgs_of_ok hns hdiv h

/-! ## The walk -/

/-- The normalised arguments of an operator satisfy `P`, if normalising them returns. -/
def Node (J : Js) (P : Op → List NExpr → Prop) : Expr → Prop
  | .lit _ => True
  | .app op es => ∀ ns, Expr.mapArgs (normalizeCallback J) es = .ok ns → P op ns

/-- No step of the walk divides by a constant 0. -/
def DividesByNoZero (J : Js) : Expr → Prop :=
  Throughout (Node J fun op ns => ∀ r ∈ permutations ns, DivisorsFit J op r.2)

/-- At each step of the walk every list of branches keeps a result other than null, and a
literal pattern is a string. -/
def KeepsThroughout (J : Js) : Expr → Prop := Throughout (Node J (StepKeeps J))

theorem mapArgs_results {T : Type} {cb : Shape T → Except JsError T} {es : List Expr} {ts : List T}
    (h : Expr.mapArgs cb es = .ok ts) : List.Forall₂ (fun e t => e.map cb = .ok t) es ts := by
  induction es generalizing ts with
  | nil =>
      cases h
      exact .nil
  | cons e es ih =>
      rw [Expr.mapArgs] at h
      obtain ⟨t, ht, h⟩ := bind_eq_ok_iff.mp h
      obtain ⟨ts', hts, h⟩ := bind_eq_ok_iff.mp h
      cases h
      exact .cons ht (ih hts)

theorem map_returns_iff (e : Expr) (hdiv : DividesByNoZero J e) :
    ((∃ n, e.map (normalizeCallback J) = .ok n) ↔ Throughout (Node J (StepKeeps J)) e)
      ∧ ∀ n, e.map (normalizeCallback J) = .ok n → n.Sound J := by
  induction e using Expr.induction with
  | lit v =>
      refine ⟨iff_of_true ⟨_, rfl⟩ (.lit trivial), fun n hn => ?_⟩
      cases hn
      trivial
  | app op es ih =>
      cases hdiv with
      | app hnode hargs =>
          have hargs' := fun e he => ih e he (hargs e he)
          have hsound : ∀ ns, Expr.mapArgs (normalizeCallback J) es = .ok ns →
              ∀ n ∈ ns, n.Sound J := by
            intro ns hns n hn
            obtain ⟨e, he, hen⟩ := exists_left_of_forall₂ (mapArgs_results hns) hn
            exact (hargs' e he).2 n hen
          refine ⟨⟨?_, ?_⟩, ?_⟩
          · rintro ⟨n, hn⟩
            rw [Expr.map] at hn
            obtain ⟨ns, hns, hn⟩ := bind_eq_ok_iff.mp hn
            refine .app (fun ns' hns' => ?_) fun e he => (hargs' e he).1.mp ?_
            · cases hns.symm.trans hns'
              exact keeps_of_callback (hsound ns hns) (hnode ns hns) hn
            · obtain ⟨t, -, ht⟩ := exists_right_of_forall₂ (mapArgs_results hns) he
              exact ⟨t, ht⟩
          · rintro (_ | ⟨hkeeps, hbelow⟩)
            have hall : ∀ e ∈ es, ∃ n, e.map (normalizeCallback J) = .ok n :=
              fun e he => (hargs' e he).1.mpr (hbelow e he)
            obtain ⟨ns, hns⟩ : ∃ ns, Expr.mapArgs (normalizeCallback J) es = .ok ns := by
              obtain ⟨ns, -, hns⟩ := mapM_ok fun e he => (hall e he).imp fun n hn => ⟨hn, hn⟩
              exact ⟨ns, mapArgs_of_forall₂ hns⟩
            obtain ⟨n, hn, -⟩ := callback_ok (hsound ns hns) (hnode ns hns) (hkeeps ns hns)
            exact ⟨n, by rw [Expr.map]; exact bind_ok hns hn⟩
          · intro n hn
            rw [Expr.map] at hn
            obtain ⟨ns, hns, hn⟩ := bind_eq_ok_iff.mp hn
            obtain ⟨n', hn', hnsound⟩ := callback_ok (hsound ns hns) (hnode ns hns)
              (keeps_of_callback (hsound ns hns) (hnode ns hns) hn)
            cases hn.symm.trans hn'
            exact hnsound

theorem normalize_returns_iff (e : Expr) (hdiv : DividesByNoZero J e) :
    (∃ r, normalize J e = .ok r) ↔ KeepsThroughout J e := by
  unfold KeepsThroughout
  obtain ⟨hiff, hsound⟩ := map_returns_iff e hdiv
  rw [← hiff]
  constructor
  · rintro ⟨r, hr⟩
    obtain ⟨n, hn, -⟩ := bind_eq_ok_iff.mp hr
    exact ⟨n, hn⟩
  · rintro ⟨n, hn⟩
    have hnsound := hsound n hn
    cases n with
    | arm a =>
        obtain ⟨r, hr, -⟩ := Arm.Sound.restore hnsound
        exact ⟨r, bind_ok hn hr⟩
    | case arms =>
        obtain ⟨rows, hrows, -⟩ := @mapM_ok _ _ _ (fun wt : Expr × Arm => do
            let t ← wt.2.restore
            pure [wt.1, t]) (fun _ _ => True) arms fun wt hwt => by
          obtain ⟨t, ht, -⟩ := (hnsound wt hwt).restore
          exact ⟨_, bind_ok ht rfl, trivial⟩
        exact ⟨_, bind_ok hn (bind_ok hrows rfl)⟩

end GenieAcs
