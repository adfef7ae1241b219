import GenieAcs.NormalizeArithmetic

/-!
# Comparisons in normal form

A comparison of arithmetic expressions is normalised by moving the constants
to the right, dividing by the first coefficient and, where negative exponents
prevail, taking the reciprocal of both sides. The truth value survives unless
a sign goes wrong on the way.
-/

namespace GenieAcs

variable {J : Js} {ρ : JsString → ℚ} {obj : Lookup} {now : Option ℚ}

/-! ## Comparisons of numbers -/

/-- The truth of a comparison of two numbers. -/
def compares (op : Op) (x y : ℚ) : Bool := op.holds (compareLt x y)

/-- The relation an operator stands for. -/
def Op.Relates : Op → ℚ → ℚ → Prop
  | .eq, x, y => x = y
  | .ne, x, y => x ≠ y
  | .gt, x, y => y < x
  | .ge, x, y => y ≤ x
  | .lt, x, y => x < y
  | .le, x, y => x ≤ y
  | _, _, _ => False

section

attribute [local simp] Op.Relates

theorem compares_iff (op : Op) (x y : ℚ) : compares op x y = true ↔ op.Relates x y := by
  unfold compares compareLt
  rcases lt_trichotomy x y with h | h | h
  · rw [if_neg h.asymm, if_pos h]
    cases op <;> simp [Op.holds, Op.Relates, h, h.le, h.ne, h.asymm, not_le.mpr h]
  · subst h
    rw [if_neg (lt_irrefl x), if_neg (lt_irrefl x)]
    cases op <;> simp [Op.holds, Op.Relates]
  · rw [if_pos h]
    cases op <;> simp [Op.holds, Op.Relates, h, h.le, h.ne', h.asymm, not_le.mpr h]

theorem compares_congr {op op' : Op} {x y x' y' : ℚ} (h : op.Relates x y ↔ op'.Relates x' y') :
    compares op x y = compares op' x' y' := by
  rw [Bool.eq_iff_iff, compares_iff, compares_iff]
  exact h

theorem compares_swapped (op : Op) (x y : ℚ) : compares (swappedOp op) x y = compares op y x := by
  apply compares_congr
  cases op <;> simp [swappedOp, Op.Relates, eq_comm]

/-- Only the difference of the sides counts. -/
theorem compares_sub (op : Op) {x y x' y' : ℚ} (h : x - y = x' - y') :
    compares op x y = compares op x' y' := by
  have heq : x = y ↔ x' = y' := by rw [← sub_eq_zero, h, sub_eq_zero]
  have hlt : x < y ↔ x' < y' := by rw [← sub_neg, h, sub_neg]
  have hgt : y < x ↔ y' < x' := by rw [← sub_pos, h, sub_pos]
  apply compares_congr
  cases op <;> simp [Op.Relates, heq, hlt, hgt, ← not_lt]

theorem compares_mul_pos (op : Op) {x y s : ℚ} (hs : 0 < s) :
    compares op (x * s) (y * s) = compares op x y := by
  apply compares_congr
  cases op <;> simp [Op.Relates, hs, hs.ne']

theorem compares_mul_neg (op : Op) {x y s : ℚ} (hs : s < 0) :
    compares op (x * s) (y * s) = compares op y x := by
  apply compares_congr
  cases op <;> simp [Op.Relates, hs, hs.ne, eq_comm]

theorem compares_inv_pos (op : Op) {x y : ℚ} (h : 0 < x * y) :
    compares op x⁻¹ y⁻¹ = compares op y x := by
  have hx : x ≠ 0 := left_ne_zero_of_mul h.ne'
  have hy : y ≠ 0 := right_ne_zero_of_mul h.ne'
  have hscale := @compares_mul_pos op x⁻¹ y⁻¹ _ h
  rw [← hscale, inv_mul_cancel_left₀ hx, mul_comm x y, inv_mul_cancel_left₀ hy]

theorem compares_inv_nonpos (op : Op) {x y : ℚ} (hy : y ≠ 0) (h : x * y ≤ 0) :
    compares op x⁻¹ y⁻¹ = compares op x y := by
  by_cases hx : x = 0
  · subst hx
    rw [inv_zero]
    apply compares_congr
    cases op <;> simp [Op.Relates]
  · have hneg : x * y < 0 := lt_of_le_of_ne h (mul_ne_zero hx hy)
    have hscale := @compares_mul_neg op y⁻¹ x⁻¹ _ hneg
    rw [← hscale, mul_comm x y, inv_mul_cancel_left₀ hy, mul_comm y x, inv_mul_cancel_left₀ hx]

/-- Swapping the sides shows unless the operator is symmetric or the sides
are equal. -/
theorem compares_comm_iff {op : Op} (hop : op.IsCompare) (x y : ℚ) :
    compares op y x = compares op x y ↔ op = .eq ∨ op = .ne ∨ x = y := by
  rw [Bool.eq_iff_iff, compares_iff, compares_iff]
  have hlt : (y < x ↔ x < y) ↔ x = y := by
    constructor
    · intro h
      rcases lt_trichotomy x y with hxy | hxy | hxy
      · exact absurd (h.mpr hxy) hxy.asymm
      · exact hxy
      · exact absurd (h.mp hxy) hxy.asymm
    · rintro rfl
      exact Iff.rfl
  cases hop with
  | eq => simp [Op.Relates, eq_comm]
  | ne => simp [Op.Relates, ne_comm]
  | gt => simpa [Op.Relates, eq_comm, iff_comm] using hlt
  | lt => simpa [Op.Relates] using hlt
  | ge => simpa [Op.Relates, ← not_lt, not_iff_not] using hlt
  | le => simpa [Op.Relates, ← not_lt, not_iff_not, iff_comm] using hlt

end

/-! ## The two sides -/

/-- The sides after the constants are moved to the right. -/
def moveConstants (J : Js) (lhs rhs : Polynomial) : Except JsError (Polynomial × Polynomial) := do
  let lhs ← lhs.subtract J rhs
  let rhs := lhs.constant.negation
  let lhs ← lhs.add J rhs
  pure (lhs, rhs)

/-- Negative exponents prevail; a first key below the line counts once more. -/
def inverts (lhs : Polynomial) : Bool :=
  match lhs with
  | [] => false
  | t :: _ =>
      decide ((if (t.indeterminates.map (·.2)).headD 0 < 0 then -1 else 0)
        + (lhs.flatMap fun t => t.indeterminates.map (·.2)).sum < 0)

/-- The code takes the sign of the coefficient of a term for negative. -/
def Term.flips (t : Term) : Bool := decide (t.coefficientNumerator < 0 ∨ t.coefficientDenominator < 0)

variable {lhs rhs : Polynomial}

theorem moveConstants_eq_ok {l r : Polynomial} : moveConstants J lhs rhs = .ok (l, r) ↔
    ∃ d, lhs.subtract J rhs = .ok d ∧ d.add J d.constant.negation = .ok l
      ∧ d.constant.negation = r := by
  constructor
  · intro h
    obtain ⟨d, hd, h⟩ := bind_eq_ok_iff.mp h
    obtain ⟨l', hl, h⟩ := bind_eq_ok_iff.mp h
    obtain ⟨rfl, rfl⟩ := Prod.mk.inj (Except.ok.inj h)
    exact ⟨d, hd, hl, rfl⟩
  · rintro ⟨d, hd, hl, rfl⟩
    exact bind_ok hd (bind_ok hl rfl)

/-- Moving the constants throws nothing, and what it moves is a constant. -/
theorem moveConstants_ok (hl : lhs.Sound J) (hr : rhs.Sound J) :
    ∃ l r, moveConstants J lhs rhs = .ok (l, r) ∧ l.Reduced J ∧ r.Reduced J
      ∧ ∀ t ∈ r, t.indeterminates = [] := by
  obtain ⟨d, hd, hdreduced⟩ := Polynomial.subtract_ok hl hr
  have hconst : d.constant.Sound J := fun t ht => hdreduced.sound t (List.mem_of_mem_filter ht)
  obtain ⟨l, hladd, hlreduced⟩ := Polynomial.add_ok hdreduced.sound hconst.negation
  refine ⟨l, d.constant.negation, ?_, hlreduced, ⟨hconst.negation, ?_, ?_⟩, ?_⟩
  · exact moveConstants_eq_ok.mpr ⟨d, hd, hladd, rfl⟩
  · intro t ht
    obtain ⟨u, hu, rfl⟩ := List.mem_map.mp ht
    have hne := hdreduced.nonzero u (List.mem_of_mem_filter hu)
    show u.coefficientNumerator * -1 ≠ 0
    omega
  · exact List.pairwise_map.mpr (hdreduced.strict.sublist List.filter_sublist)
  · intro t ht
    obtain ⟨u, hu, rfl⟩ := List.mem_map.mp ht
    simpa using (List.mem_filter.mp hu).2

theorem moveConstants_spec (hl : lhs.Proper J (keyValue ρ)) (hr : rhs.Proper J (keyValue ρ)) :
    ∃ l r, moveConstants J lhs rhs = .ok (l, r) ∧ l.Simplified J (keyValue ρ)
      ∧ r.Simplified J (keyValue ρ) ∧ (∀ t ∈ r, t.indeterminates = [])
      ∧ l.value (keyValue ρ) - r.value (keyValue ρ)
        = lhs.value (keyValue ρ) - rhs.value (keyValue ρ) := by
  obtain ⟨d, hd, hdsimple, hdvalue⟩ := Polynomial.subtract_spec hl hr
  have hproper : d.constant.Proper J (keyValue ρ) :=
    fun t ht => hdsimple.proper t (List.mem_of_mem_filter ht)
  obtain ⟨l, hladd, hlsimple, hlvalue⟩ := Polynomial.add_spec hdsimple.isProper hproper.negation
  have hmove := moveConstants_eq_ok.mpr ⟨d, hd, hladd, rfl⟩
  obtain ⟨l', r', hmove', -, hreduced, hconst⟩ :=
    moveConstants_ok (fun t ht => (hl t ht).sound) fun t ht => (hr t ht).sound
  obtain ⟨rfl, rfl⟩ := Prod.mk.inj (Except.ok.inj (hmove.symm.trans hmove'))
  refine ⟨l, _, hmove, hlsimple, ⟨hproper.negation, hreduced.nonzero, hreduced.strict⟩, hconst, ?_⟩
  rw [hlvalue, hdvalue]
  ring

theorem inverts_congr {p q : Polynomial}
    (h : p.map (·.indeterminates) = q.map (·.indeterminates)) : inverts p = inverts q := by
  have hflat : (p.flatMap fun t => t.indeterminates.map (·.2))
      = q.flatMap fun t => t.indeterminates.map (·.2) := by
    have hmap := congrArg (fun is => (is.flatMap fun (i : Indeterminates) => i.map (·.2))) h
    simp only [List.flatMap_map] at hmap
    exact hmap
  cases p with
  | nil =>
      cases q with
      | nil => rfl
      | cons u q => cases h
  | cons t p =>
      cases q with
      | nil => cases h
      | cons u q =>
          have hhead : t.indeterminates = u.indeterminates := (List.cons.inj h).1
          simp only [inverts, hhead, hflat]

/-- The rest of `compareSides`, once the constants are moved. -/
theorem compareSides_eq {op : Op} {l r : Polynomial} {t : Term} {ts l' r' : Polynomial}
    (hmove : moveConstants J lhs rhs = .ok (l, r)) (hlt : l = t :: ts)
    (hl' : l.multiply J [⟨[], t.coefficientDenominator, t.coefficientNumerator⟩] = .ok l')
    (hr' : r.multiply J [⟨[], t.coefficientDenominator, t.coefficientNumerator⟩] = .ok r')
    (hne : l' ≠ []) :
    compareSides J op lhs rhs = .ok (.inr (
      let op' := if t.flips = true then swappedOp op else op
      if inverts l' then (swappedOp op', l'.reciprocal, r'.reciprocal) else (op', l', r'))) := by
  subst hlt
  obtain ⟨d, hd, ha, rfl⟩ := moveConstants_eq_ok.mp hmove
  rw [compareSides]
  simp only [bind, Except.bind, hd, ha, hl', hr']
  cases l' with
  | nil => exact absurd rfl hne
  | cons u us =>
      simp only [inverts, Term.flips, decide_eq_true_eq]
      split_ifs <;> rfl

/-- A polynomial without indeterminates is printed as its value. -/
theorem toExpression_constant {r : Polynomial} (hr : r.Reduced J)
    (hconst : ∀ t ∈ r, t.indeterminates = []) :
    r.toExpression = .ok (.lit (some (.num (r.value (keyValue ρ))))) := by
  match r, hr.length_le_one hconst with
  | [], _ => rfl
  | [t], _ =>
      have hi := hconst t List.mem_cons_self
      have hd := (hr.sound t List.mem_cons_self).denominator
      have hvalue : Polynomial.value (keyValue ρ) [t]
          = t.coefficientNumerator / t.coefficientDenominator := by
        rw [Polynomial.value_cons, Term.value, hi]
        simp [Polynomial.value, Indeterminates.value]
      rw [hvalue, Polynomial.toExpression, List.mapM_cons, Polynomial.termExpression, if_neg hd, hi]
      rfl

/-- A comparison of sides that differ by a constant. -/
theorem compareSides_nil {op : Op} {r : Polynomial}
    (hmove : moveConstants J lhs rhs = .ok ([], r)) (hr : r.Reduced J)
    (hconst : ∀ t ∈ r, t.indeterminates = []) :
    compareSides J op lhs rhs
      = .ok (.inl (Expr.ofBool (compares op 0 (r.value (keyValue ρ))))) := by
  obtain ⟨d, hd, ha, rfl⟩ := moveConstants_eq_ok.mp hmove
  rw [compareSides]
  simp only [bind, Except.bind, hd, ha, @toExpression_constant J ρ _ hr hconst]
  rfl

/-! ## The printed comparison -/

/-- What is left of a comparison of two polynomials, and its value. -/
theorem restore_compare {op : Op} (hop : op.IsCompare) {l r : Polynomial} {e₁ e₂ : Expr}
    {v₁ v₂ : Option Value} (hl : l.toExpression = .ok e₁) (hr : r.toExpression = .ok e₂)
    (h₁ : Evaluates J obj now e₁ v₁) (h₂ : Evaluates J obj now e₂ v₂) :
    ∃ e, restoreAndEvaluate J op [.poly l, .poly r] = .ok (.expr e)
      ∧ Evaluates J obj now e ((compareTruth op v₁ v₂).map .bool) := by
  have hnode : ∀ obj now args,
      evaluateNode J obj now (.app op args) = .ok (evaluateCompare op args) := by
    intro obj now args
    cases hop <;> rfl
  have hcallback : evaluateCallback J op [e₁, e₂] = .ok (evaluateCompare op [e₁, e₂]) := by
    cases hop <;> rfl
  have hvalue : evaluateCompare op ([v₁, v₂].map .lit)
      = .lit ((compareTruth op v₁ v₂).map .bool) := by
    cases v₁ with
    | none => rfl
    | some v₁ => cases v₂ <;> rfl
  refine ⟨evaluateCompare op [e₁, e₂], ?_, ?_⟩
  · rw [restoreAndEvaluate, List.mapM_cons, List.mapM_cons, List.mapM_nil]
    simp only [Arm.restore, hl, hr]
    show (do let e ← evaluateCallback J op [e₁, e₂]; pure (Arm.expr e)) = _
    rw [hcallback]
    rfl
  · have hargs : List.Forall₂ (Evaluates J obj now) [e₁, e₂] [v₁, v₂] := .cons h₁ (.cons h₂ .nil)
    rcases evaluateCompare_residual op hargs with hself | hlit
    · rw [hself]
      exact .app hargs (by rw [hnode, hvalue])
    · rw [hlit, hvalue]
      exact .lit _

/-- Two numbers are compared as numbers. -/
theorem compareTruth_num (op : Op) (x y : ℚ) :
    compareTruth op (some (.num x)) (some (.num y)) = some (compares op x y) := rfl

/-! ### The reciprocal of a term with a zero in it -/

theorem powerFactors_values (hobj : Reads ρ obj) {kw : Expr × ℤ} (hparam : ∃ p, kw.1 = .ofParam p) :
    ∃ vs, List.Forall₂ (Evaluates J obj now) (Polynomial.powerFactors kw) vs
      ∧ (kw.2 < 0 → keyValue ρ kw.1 = 0 → none ∈ vs) := by
  obtain ⟨k, w⟩ := kw
  obtain ⟨p, hk⟩ := hparam
  simp only at hk ⊢
  subst hk
  refine ⟨List.replicate w.natAbs (if 0 < w then some (.num (ρ p))
    else if ρ p = 0 then none else some (.num (ρ p)⁻¹)), ?_, fun hneg hzero => ?_⟩
  · unfold Polynomial.powerFactors
    rw [List.forall₂_iff_get]
    refine ⟨by simp, fun i hi hi' => ?_⟩
    simp only [List.get_eq_getElem, List.getElem_replicate]
    split_ifs with hpos hzero
    · exact (Arithmetic.param p).evaluates hobj
    · have hinv := @evaluates_inverse J ρ obj now hobj p
      rw [if_pos hzero] at hinv
      exact hinv
    · have hinv := @evaluates_inverse J ρ obj now hobj p
      rw [if_neg hzero] at hinv
      exact hinv
  · rw [keyValue_ofParam] at hzero
    rw [if_neg (by omega), if_pos hzero]
    exact List.mem_replicate.mpr ⟨by omega, rfl⟩

theorem factors_values (hobj : Reads ρ obj) {a : Indeterminates}
    (hparam : ∀ kw ∈ a, ∃ p, kw.1 = .ofParam p) :
    ∃ vs, List.Forall₂ (Evaluates J obj now) (a.flatMap Polynomial.powerFactors) vs
      ∧ ((∃ kw ∈ a, kw.2 < 0 ∧ keyValue ρ kw.1 = 0) → none ∈ vs) := by
  induction a with
  | nil => exact ⟨[], .nil, fun ⟨_, h, _⟩ => (nomatch h)⟩
  | cons kw a ih =>
      obtain ⟨vs, hvs, hzero⟩ := @powerFactors_values J ρ obj now hobj kw
        (hparam kw List.mem_cons_self)
      obtain ⟨ws, hws, hzero'⟩ := ih fun kw hkw => hparam kw (List.mem_cons_of_mem _ hkw)
      refine ⟨vs ++ ws, List.rel_append hvs hws, ?_⟩
      rintro ⟨x, hx, hneg, hx0⟩
      rcases List.mem_cons.mp hx with rfl | hx
      · exact List.mem_append_left _ (hzero hneg hx0)
      · exact List.mem_append_right _ (hzero' ⟨x, hx, hneg, hx0⟩)

/-- A product with a null in it is null. -/
theorem productOf_null {es : List Expr} {vs : List (Option Value)}
    (h : List.Forall₂ (Evaluates J obj now) es vs) (hnull : none ∈ vs) :
    Evaluates J obj now (productOf es) none := by
  match es, h with
  | [], .nil => cases hnull
  | [e], .cons (b := v) he .nil =>
      rw [List.mem_singleton] at hnull
      rw [hnull]
      exact he
  | e :: e' :: es, h =>
      refine .app h ?_
      have hne : vs ≠ [] := List.ne_nil_of_mem hnull
      show Except.ok (reduce .mul _ _) = _
      rw [(folds_mul J).reduce_lits .mul hne, foldValues_null hnull]

/-- A term that divides by zero is printed as an expression that is null. -/
theorem toExpression_null (hobj : Reads ρ obj) {t : Term} (hd : t.coefficientDenominator ≠ 0)
    (hparam : ∀ kw ∈ t.indeterminates, ∃ p, kw.1 = .ofParam p)
    (hzero : ∃ kw ∈ t.indeterminates, kw.2 < 0 ∧ keyValue ρ kw.1 = 0) :
    ∃ e, Polynomial.toExpression [t] = .ok e ∧ Evaluates J obj now e none := by
  have hne : t.indeterminates ≠ [] := by
    obtain ⟨kw, hkw, -⟩ := hzero
    exact List.ne_nil_of_mem hkw
  obtain ⟨vs, hvs, hnull⟩ := @factors_values J ρ obj now hobj _ hparam
  refine ⟨productOf (t.indeterminates.flatMap Polynomial.powerFactors
    ++ coefficientFactor (t.coefficientNumerator / t.coefficientDenominator)), ?_, ?_⟩
  · rw [Polynomial.toExpression, List.mapM_cons, termExpression_eq hd hne]
    rfl
  · obtain ⟨us, hus⟩ : ∃ us, List.Forall₂ (Evaluates J obj now)
        (coefficientFactor (t.coefficientNumerator / t.coefficientDenominator)) us := by
      unfold coefficientFactor
      split_ifs
      · exact ⟨[_], .cons (.lit _) .nil⟩
      · exact ⟨[], .nil⟩
    exact productOf_null (List.rel_append hvs hus) (List.mem_append_left _ (hnull hzero))

/-! ## The signs -/

/-- Both parts of the coefficient are negative. -/
def Term.BothNegative (t : Term) : Prop := t.coefficientNumerator < 0 ∧ t.coefficientDenominator < 0

/-- The signs come out right for the sides `l` and `r`: a key of a reciprocal
is not zero, and unless the order of the sides does not matter, the operator
is turned round wrongly either not at all or twice. -/
def SignsKept (ρ : JsString → ℚ) (op : Op) (l r : Polynomial) : Prop :=
  ∀ t ts, l = t :: ts →
    (inverts l = true → ∀ kw ∈ t.indeterminates, keyValue ρ kw.1 ≠ 0)
      ∧ (op = .eq ∨ op = .ne ∨ l.value (keyValue ρ) = r.value (keyValue ρ)
        ∨ (t.BothNegative ↔
          inverts l = true ∧ l.value (keyValue ρ) * r.value (keyValue ρ) ≤ 0))

/-- Dividing by the first coefficient, with the operator turned round where
the code does. -/
theorem compares_scaled (op : Op) {t : Term} (hn : t.coefficientNumerator ≠ 0)
    (hd : t.coefficientDenominator ≠ 0) (x y : ℚ) :
    compares (if t.flips = true then swappedOp op else op)
        (x * (t.coefficientDenominator / t.coefficientNumerator))
        (y * (t.coefficientDenominator / t.coefficientNumerator))
      = if t.coefficientNumerator < 0 ∧ t.coefficientDenominator < 0 then compares op y x
        else compares op x y := by
  have hflips : t.flips = true ↔ t.coefficientNumerator < 0 ∨ t.coefficientDenominator < 0 := by
    simp [Term.flips]
  rcases lt_or_gt_of_ne hn with hneg | hpos
  · rw [if_pos (hflips.mpr (Or.inl hneg)), compares_swapped]
    have hneg' : (t.coefficientNumerator : ℚ) < 0 := by exact_mod_cast hneg
    rcases lt_or_gt_of_ne hd with hdneg | hdpos
    · rw [if_pos ⟨hneg, hdneg⟩]
      have hdneg' : (t.coefficientDenominator : ℚ) < 0 := by exact_mod_cast hdneg
      exact compares_mul_pos op (div_pos_of_neg_of_neg hdneg' hneg')
    · rw [if_neg fun h => hdpos.asymm h.2]
      have hdpos' : (0 : ℚ) < t.coefficientDenominator := by exact_mod_cast hdpos
      exact compares_mul_neg op (div_neg_of_pos_of_neg hdpos' hneg')
  · have hpos' : (0 : ℚ) < t.coefficientNumerator := by exact_mod_cast hpos
    have hboth : ¬(t.coefficientNumerator < 0 ∧ t.coefficientDenominator < 0) :=
      fun h => hpos.asymm h.1
    rcases lt_or_gt_of_ne hd with hdneg | hdpos
    · have hdneg' : (t.coefficientDenominator : ℚ) < 0 := by exact_mod_cast hdneg
      rw [if_pos (hflips.mpr (Or.inr hdneg)), if_neg hboth, compares_swapped]
      exact compares_mul_neg op (div_neg_of_neg_of_pos hdneg' hpos')
    · have hdpos' : (0 : ℚ) < t.coefficientDenominator := by exact_mod_cast hdpos
      rw [if_neg fun h => (hflips.mp h).elim hpos.asymm hdpos.asymm, if_neg hboth]
      exact compares_mul_pos op (div_pos hdpos' hpos')

/-- The reciprocals of both sides, with the operator turned round. -/
theorem compares_inverted (op : Op) {x y s : ℚ} (hx : x ≠ 0) (hs : s ≠ 0) :
    compares (swappedOp op) (x * s)⁻¹ (y * s)⁻¹
      = if x * y ≤ 0 then compares op (y * s) (x * s) else compares op (x * s) (y * s) := by
  have hsquare : 0 < s * s := mul_self_pos.mpr hs
  have hprod : y * s * (x * s) = x * y * (s * s) := by ring
  rw [compares_swapped]
  split_ifs with hxy
  · apply compares_inv_nonpos
    · exact mul_ne_zero hx hs
    · rw [hprod]
      exact mul_nonpos_of_nonpos_of_nonneg hxy hsquare.le
  · apply compares_inv_pos
    rw [hprod]
    exact mul_pos (not_le.mp hxy) hsquare

/-- What `normalizeCompare` makes of the result of `compareSides`. -/
def finishCompare (J : Js) : Expr ⊕ Op × Polynomial × Polynomial → Except JsError Arm
  | .inl e => pure (.expr e)
  | .inr (op, lhs, rhs) => restoreAndEvaluate J op [.poly lhs, .poly rhs]

theorem isCompare_turned {op : Op} (h : op.IsCompare) (turned : Bool) :
    (if turned = true then swappedOp op else op).IsCompare := by
  cases turned
  · exact h
  · exact h.swapped

theorem reciprocal_constant {r : Polynomial} (hr : r.Simplified J (keyValue ρ))
    (hconst : ∀ t ∈ r, t.indeterminates = []) : Polynomial.Proper J (keyValue ρ) r.reciprocal
      ∧ r.reciprocal.value (keyValue ρ) = (r.value (keyValue ρ))⁻¹ := by
  match r, hr.reduced.length_le_one hconst with
  | [], _ => exact ⟨fun _ h => (nomatch h), inv_zero.symm⟩
  | [u], _ =>
      have hu := hr.proper u List.mem_cons_self
      have hne : u.value (keyValue ρ) ≠ 0 := by
        rw [Term.value, hconst u List.mem_cons_self]
        simpa [Indeterminates.value] using ⟨hr.nonzero u List.mem_cons_self, hu.denominator⟩
      obtain ⟨hproper, hvalue⟩ := Polynomial.reciprocal_single hu hne
      refine ⟨hproper, ?_⟩
      rw [hvalue, Polynomial.value_cons]
      simp [Polynomial.value]

theorem term_ne_zero {t : Term} (hd : t.coefficientDenominator ≠ 0)
    (hn : t.coefficientNumerator ≠ 0) (h : ∀ kw ∈ t.indeterminates, keyValue ρ kw.1 ≠ 0) :
    t.value (keyValue ρ) ≠ 0 := by
  have hnq : (t.coefficientNumerator : ℚ) ≠ 0 := by exact_mod_cast hn
  have hdq : (t.coefficientDenominator : ℚ) ≠ 0 := by exact_mod_cast hd
  refine mul_ne_zero (div_ne_zero hnq hdq) (List.prod_ne_zero fun hmem => ?_)
  obtain ⟨kw, hkw, hzero⟩ := List.mem_map.mp hmem
  exact zpow_ne_zero _ (h kw hkw) hzero

/-- Comparing the reciprocals of two sides the first of which has one term. -/
theorem reciprocal_compare (hobj : Reads ρ obj) {op : Op} (hop : op.IsCompare) {t : Term}
    {r : Polynomial} (ht : t.Proper J (keyValue ρ)) (hn : t.coefficientNumerator ≠ 0)
    (hr : r.Simplified J (keyValue ρ)) (hconst : ∀ t ∈ r, t.indeterminates = []) :
    ∃ e w, restoreAndEvaluate J op [.poly (Polynomial.reciprocal [t]), .poly r.reciprocal]
        = .ok (.expr e)
      ∧ Evaluates J obj now e w
      ∧ ((∀ kw ∈ t.indeterminates, keyValue ρ kw.1 ≠ 0) →
          w = some (.bool (compares op (t.value (keyValue ρ))⁻¹ (r.value (keyValue ρ))⁻¹)))
      ∧ ((∃ kw ∈ t.indeterminates, keyValue ρ kw.1 = 0) → w = none) := by
  obtain ⟨hrproper, hrvalue⟩ := reciprocal_constant hr hconst
  obtain ⟨e₂, he₂, hv₂⟩ := @toExpression_evaluates J ρ obj now hobj _ hrproper
  rw [hrvalue] at hv₂
  by_cases hzero : ∃ kw ∈ t.indeterminates, keyValue ρ kw.1 = 0
  · have hnull : ∃ kw ∈ t.indeterminates.reciprocal, kw.2 < 0 ∧ keyValue ρ kw.1 = 0 := by
      obtain ⟨kw, hkw, hkw0⟩ := hzero
      refine ⟨(kw.1, -kw.2), List.mem_map.mpr ⟨kw, hkw, rfl⟩, ?_, hkw0⟩
      have hexp := ht.indeterminates.exponents kw hkw
      have hnonneg : ¬kw.2 < 0 := fun hneg => ht.indeterminates.nonzero kw hkw hneg hkw0
      show -kw.2 < 0
      omega
    have hparam : ∀ kw ∈ t.indeterminates.reciprocal, ∃ p, kw.1 = .ofParam p := by
      intro kw hkw
      obtain ⟨x, hx, rfl⟩ := List.mem_map.mp hkw
      exact ht.indeterminates.params x hx
    obtain ⟨e₁, he₁, hv₁⟩ := @toExpression_null J ρ obj now hobj
      ⟨t.indeterminates.reciprocal, t.coefficientDenominator, t.coefficientNumerator⟩ hn hparam hnull
    obtain ⟨e, he, hv⟩ := restore_compare hop he₁ he₂ hv₁ hv₂
    refine ⟨e, _, he, hv, fun h => ?_, fun _ => rfl⟩
    obtain ⟨kw, hkw, hkw0⟩ := hzero
    exact absurd hkw0 (h kw hkw)
  · have hne : ∀ kw ∈ t.indeterminates, keyValue ρ kw.1 ≠ 0 :=
      fun kw hkw hkw0 => hzero ⟨kw, hkw, hkw0⟩
    obtain ⟨hlproper, hlvalue⟩ :=
      Polynomial.reciprocal_single ht (term_ne_zero ht.denominator hn hne)
    obtain ⟨e₁, he₁, hv₁⟩ := @toExpression_evaluates J ρ obj now hobj _ hlproper
    rw [hlvalue] at hv₁
    obtain ⟨e, he, hv⟩ := restore_compare hop he₁ he₂ hv₁ hv₂
    rw [compareTruth_num] at hv
    exact ⟨e, _, he, hv, fun _ => rfl, fun h => absurd h hzero⟩

theorem signsKept_cons {op : Op} {t : Term} {ts r : Polynomial} : SignsKept ρ op (t :: ts) r ↔
    (inverts (t :: ts) = true → ∀ kw ∈ t.indeterminates, keyValue ρ kw.1 ≠ 0)
      ∧ (op = .eq ∨ op = .ne
        ∨ Polynomial.value (keyValue ρ) (t :: ts) = r.value (keyValue ρ)
        ∨ (t.BothNegative ↔ inverts (t :: ts) = true
          ∧ Polynomial.value (keyValue ρ) (t :: ts) * r.value (keyValue ρ) ≤ 0)) := by
  constructor
  · intro h
    exact h t ts rfl
  · intro h t' ts' hcons
    cases hcons
    exact h

/-- The truth of the rewritten comparison, where it has one, as a comparison
of the sides as they were. -/
theorem kept_iff {op : Op} (hop : op.IsCompare) {t : Term} {x y : ℚ} {inverted : Prop}
    [Decidable inverted] {b : Bool}
    (hb : b = if t.coefficientNumerator < 0 ∧ t.coefficientDenominator < 0 ↔ inverted
      then compares op x y else compares op y x) :
    b = compares op x y ↔ op = .eq ∨ op = .ne ∨ x = y ∨ (t.BothNegative ↔ inverted) := by
  have hcomm := compares_comm_iff hop x y
  rw [Term.BothNegative, hb]
  split_ifs with h
  · simp [h]
  · rw [hcomm]
    simp [h]

theorem compareSides_value (hobj : Reads ρ obj) {op : Op} (hop : op.IsCompare)
    {l r : Polynomial} (hmove : moveConstants J lhs rhs = .ok (l, r))
    (hl : l.Simplified J (keyValue ρ)) (hr : r.Simplified J (keyValue ρ))
    (hconst : ∀ t ∈ r, t.indeterminates = []) (hsum : inverts l = true → l.length ≤ 1) :
    ∃ e w, compareSides J op lhs rhs >>= finishCompare J = .ok (.expr e)
      ∧ Evaluates J obj now e w
      ∧ (w = some (.bool (compares op (l.value (keyValue ρ)) (r.value (keyValue ρ))))
        ↔ SignsKept ρ op l r) := by
  cases l with
  | nil =>
      rw [compareSides_nil hmove hr.reduced hconst]
      refine ⟨_, _, rfl, .lit _, fun _ t ts h => (nomatch h), fun _ => rfl⟩
  | cons t ts =>
      have hn := hl.nonzero t List.mem_cons_self
      have hd := (hl.proper t List.mem_cons_self).denominator
      obtain ⟨l', hlmul, hlsimple, hlvalue, hlinds⟩ := Polynomial.multiply_constant hl hd hn
      obtain ⟨r', hrmul, hrsimple, hrvalue, hrinds⟩ := Polynomial.multiply_constant hr hd hn
      have hconst' : ∀ t ∈ r', t.indeterminates = [] := by
        intro u hu
        have hmem : u.indeterminates ∈ r.map (·.indeterminates) := by
          rw [← hrinds]
          exact List.mem_map_of_mem hu
        obtain ⟨v, hv, hvu⟩ := List.mem_map.mp hmem
        rw [← hvu]
        exact hconst v hv
      have hne : l' ≠ [] := by
        rintro rfl
        cases hlinds
      have hop' := isCompare_turned hop t.flips
      rw [compareSides_eq hmove rfl hlmul hrmul hne, inverts_congr hlinds]
      cases hinv : inverts (t :: ts) with
      | false =>
          obtain ⟨e₁, he₁, hv₁⟩ := @toExpression_evaluates J ρ obj now hobj _ hlsimple.isProper
          obtain ⟨e₂, he₂, hv₂⟩ := @toExpression_evaluates J ρ obj now hobj _ hrsimple.isProper
          obtain ⟨e, he, hv⟩ := restore_compare hop' he₁ he₂ hv₁ hv₂
          refine ⟨e, _, he, hv, ?_⟩
          have hkept := @kept_iff op hop t (Polynomial.value (keyValue ρ) (t :: ts))
            (r.value (keyValue ρ)) (inverts (t :: ts) = true
              ∧ Polynomial.value (keyValue ρ) (t :: ts) * r.value (keyValue ρ) ≤ 0) _ _ rfl
          rw [compareTruth_num, hlvalue, hrvalue, compares_scaled op hn hd, signsKept_cons, ← hkept]
          rw [hinv]
          by_cases hboth : t.coefficientNumerator < 0 ∧ t.coefficientDenominator < 0
          · simp [hboth]
          · simp [hboth]
      | true =>
          -- there is one term, and all of it goes below the line
          obtain rfl : ts = [] := by
            have hlen := hsum hinv
            simpa using hlen
          obtain ⟨t', rfl⟩ : ∃ t', l' = [t'] := by
            have hlen := congrArg List.length hlinds
            simp only [List.length_map, List.length_cons, List.length_nil] at hlen
            exact List.length_eq_one_iff.mp hlen
          have hti : t'.indeterminates = t.indeterminates := (List.cons.inj hlinds).1
          have ht' := hlsimple.proper t' List.mem_cons_self
          have hsingle : ∀ u : Term, Polynomial.value (keyValue ρ) [u] = u.value (keyValue ρ) := by
            intro u
            simp [Polynomial.value]
          obtain ⟨e, w, he, hv, hvalue, hnull⟩ := @reciprocal_compare J ρ obj now hobj _
            hop'.swapped t' r' ht' (hlsimple.nonzero t' List.mem_cons_self) hrsimple
            hconst'
          refine ⟨e, w, he, hv, ?_⟩
          rw [signsKept_cons]
          rw [hti] at hvalue hnull
          by_cases hzero : ∃ kw ∈ t.indeterminates, keyValue ρ kw.1 = 0
          · rw [hnull hzero]
            constructor
            · intro h
              cases h
            · intro h
              obtain ⟨kw, hkw, hkw0⟩ := hzero
              exact absurd hkw0 (h.1 hinv kw hkw)
          · have hnz : ∀ kw ∈ t.indeterminates, keyValue ρ kw.1 ≠ 0 :=
              fun kw hkw hkw0 => hzero ⟨kw, hkw, hkw0⟩
            have hx := term_ne_zero (hl.proper t List.mem_cons_self).denominator hn hnz
            have hs : (t.coefficientDenominator / t.coefficientNumerator : ℚ) ≠ 0 :=
              div_ne_zero (by exact_mod_cast hd) (by exact_mod_cast hn)
            have hkept := @kept_iff op hop t (Polynomial.value (keyValue ρ) [t])
              (r.value (keyValue ρ)) (inverts [t] = true
                ∧ Polynomial.value (keyValue ρ) [t] * r.value (keyValue ρ) ≤ 0) _ _ rfl
            rw [hvalue hnz, ← hsingle t', hlvalue, hrvalue,
              compares_inverted _ (by rw [hsingle]; exact hx) hs, compares_scaled op hn hd,
              compares_scaled op hn hd]
            have hkeys : (inverts [t] = true → ∀ kw ∈ t.indeterminates, keyValue ρ kw.1 ≠ 0) :=
              fun _ => hnz
            rw [and_iff_right hkeys, ← hkept, hinv]
            by_cases hboth : t.coefficientNumerator < 0 ∧ t.coefficientDenominator < 0
            · by_cases hxy : Polynomial.value (keyValue ρ) [t] * r.value (keyValue ρ) ≤ 0
              · simp [hboth, hxy]
              · simp [hboth, hxy]
            · by_cases hxy : Polynomial.value (keyValue ρ) [t] * r.value (keyValue ρ) ≤ 0
              · simp [hboth, hxy]
              · simp [hboth, hxy]

/-! ## Comparisons -/

/-- The sides a comparison is rewritten from, with the constants moved; a
comparison of two parameters is left as it is. -/
def movedSides (J : Js) (l r : Expr) : Except JsError (Option (Polynomial × Polynomial)) := do
  let a ← l.map (normalizeCallback J)
  let b ← r.map (normalizeCallback J)
  match a, b with
  | .arm a, .arm b =>
      if (polynomialSide a).isSome ∨ (polynomialSide b).isSome then do
        let sides ← moveConstants J ((polynomialSide a).getD (indeterminateSide a))
          ((polynomialSide b).getD (indeterminateSide b))
        pure (some sides)
      else pure none
  | _, _ => pure none

/-- No sum is turned upside down: neither one that is divided by, nor a side
of the rewritten comparison. -/
def NoSumInverted (J : Js) (l r : Expr) : Prop :=
  Throughout (NoSumDivisor J) l ∧ Throughout (NoSumDivisor J) r
    ∧ ∀ lhs rhs, movedSides J l r = .ok (some (lhs, rhs)) → inverts lhs = true → lhs.length ≤ 1

/-- The signs come out right for the sides the comparison is rewritten from. -/
def SidesKept (J : Js) (ρ : JsString → ℚ) (op : Op) (l r : Expr) : Prop :=
  ∀ lhs rhs, movedSides J l r = .ok (some (lhs, rhs)) → SignsKept ρ op lhs rhs

/-- A comparison with normalised sides. -/
theorem normalize_of_arms {op : Op} (hop : op.IsCompare) {l r : Expr} {a b : Arm} {e : Expr}
    (hl : l.map (normalizeCallback J) = .ok (.arm a))
    (hr : r.map (normalizeCallback J) = .ok (.arm b))
    (h : normalizeCompare J op [a, b] = .ok (.expr e)) : normalize J (.app op [l, r]) = .ok e := by
  rw [← normalizePlain_compare hop] at h
  have hmap := map_arms (.cons hl (.cons hr .nil)) (by rintro rfl; cases hop)
    (by rintro rfl; cases hop) h
  rw [normalize, hmap]
  rfl

theorem evaluate_compare (hobj : Reads ρ obj) {op : Op} (hop : op.IsCompare) {l r : Expr} {a b : ℚ}
    (hl : Arithmetic ρ l a) (hr : Arithmetic ρ r b) :
    evaluate J (.app op [l, r]) (some obj) now id = .ok (.lit (some (.bool (compares op a b)))) := by
  rw [evaluate_app (.cons (hl.evaluates hobj).evaluate_eq
    (.cons (hr.evaluates hobj).evaluate_eq .nil))]
  cases hop <;> rfl

theorem not_isNull {a : Arm} {p : Polynomial} (h : toPolynomial J a = some p) : a.isNull = false := by
  cases a with
  | poly q => rfl
  | expr e =>
      cases e with
      | app op args => rfl
      | lit v =>
          cases v with
          | none => cases h
          | some v => rfl

/-- Unless a sum is turned upside down, a comparison of arithmetic expressions
keeps its truth if and only if the signs come out right. -/
theorem normalize_compare_iff (hobj : Reads ρ obj) {op : Op} (hop : op.IsCompare) {l r : Expr}
    {a b : ℚ} (hl : Arithmetic ρ l a) (hr : Arithmetic ρ r b) (hsum : NoSumInverted J l r) :
    (∃ e, normalize J (.app op [l, r]) = .ok e
      ∧ evaluate J e (some obj) now id = evaluate J (.app op [l, r]) (some obj) now id)
      ↔ SidesKept J ρ op l r := by
  obtain ⟨hdivl, hdivr, hinverted⟩ := hsum
  obtain ⟨al, hal, pl, ⟨hpl, hsidel, hbarel⟩, hpropl, rfl⟩ := @Arithmetic.normalizes J ρ _ _ hl hdivl
  obtain ⟨ar, har, pr, ⟨hpr, hsider, hbarer⟩, hpropr, rfl⟩ := @Arithmetic.normalizes J ρ _ _ hr hdivr
  have hnull : ¬(al.isNull = true ∨ ar.isNull = true) := by
    rw [not_isNull hpl, not_isNull hpr]
    simp
  have hmoved : movedSides J l r = if (polynomialSide al).isSome ∨ (polynomialSide ar).isSome then do
      let sides ← moveConstants J pl pr
      pure (some sides) else pure none := by
    rw [movedSides, hal, har, ← hsidel, ← hsider]
    rfl
  have hcompare : normalizeCompare J op [al, ar]
      = if (polynomialSide al).isSome ∨ (polynomialSide ar).isSome then
          compareSides J op pl pr >>= finishCompare J
        else restoreAndEvaluate J op [al, ar] := by
    rw [normalizeCompare, ← hsidel, ← hsider]
    simp only [List.getD_cons_zero, List.getD_cons_succ, if_neg hnull]
    rfl
  rw [evaluate_compare hobj hop hl hr]
  by_cases hside : (polynomialSide al).isSome ∨ (polynomialSide ar).isSome
  · rw [if_pos hside] at hmoved hcompare
    obtain ⟨lm, rm, hmove, hlm, hrm, hconst, hdiff⟩ := moveConstants_spec hpropl hpropr
    rw [hmove] at hmoved
    have hsides : movedSides J l r = .ok (some (lm, rm)) := hmoved
    obtain ⟨e, w, he, hw, hiff⟩ := @compareSides_value J ρ obj now pl pr hobj op hop lm rm hmove
      hlm hrm hconst (hinverted lm rm hsides)
    rw [← hcompare] at he
    have hnormal := normalize_of_arms hop hal har he
    rw [compares_sub op hdiff] at hiff
    constructor
    · rintro ⟨e', he', hsame⟩ lhs rhs hlr
      rw [hsides] at hlr
      cases hlr
      rw [hnormal] at he'
      cases he'
      rw [hw.evaluate_eq] at hsame
      exact hiff.mp (Expr.lit.inj (Except.ok.inj hsame))
    · intro hkept
      refine ⟨e, hnormal, ?_⟩
      rw [hw.evaluate_eq, hiff.mpr (hkept lm rm hsides)]
  · rw [if_neg hside] at hmoved hcompare
    rw [not_or, Option.not_isSome_iff_eq_none, Option.not_isSome_iff_eq_none] at hside
    obtain ⟨x, rfl⟩ := hbarel hside.1
    obtain ⟨y, rfl⟩ := hbarer hside.2
    have hkept : SidesKept J ρ op l r := by
      intro lhs rhs hlr
      rw [hmoved] at hlr
      cases hlr
    have hx : Polynomial.value (keyValue ρ) pl = ρ x := by
      rw [← Option.some.inj hpl]
      exact (@Polynomial.fromIndeterminate_spec J (keyValue ρ) x).2
    have hy : Polynomial.value (keyValue ρ) pr = ρ y := by
      rw [← Option.some.inj hpr]
      exact (@Polynomial.fromIndeterminate_spec J (keyValue ρ) y).2
    have hrestore : restoreAndEvaluate J op ([Expr.ofParam x, Expr.ofParam y].map .expr)
        = .ok (.expr (.app op [.ofParam x, .ofParam y])) := by
      apply restoreAndEvaluate_exprs
      cases hop <;> rfl
    have hnormal := normalize_of_arms hop hal har (hcompare.trans hrestore)
    refine ⟨fun _ => hkept, fun _ => ⟨_, hnormal, ?_⟩⟩
    rw [hx, hy]
    exact evaluate_compare hobj hop (.param x) (.param y)

/-- `["<", ["/", ["PARAM", "x"], 2], 3]` with 1 for every parameter. -/
theorem normalize_compare_iff_half :
    let l := Expr.app .div [.ofParam (js "x"), .lit (some (.num (2 : ℤ)))]
    let r := Expr.lit (some (.num (3 : ℤ)))
    (∃ e, normalize idleJs (.app .lt [l, r]) = .ok e
      ∧ evaluate idleJs e (some fun _ => some (.num 1)) none id
        = evaluate idleJs (.app .lt [l, r]) (some fun _ => some (.num 1)) none id)
      ↔ SidesKept idleJs (fun _ => 1) .lt l r := by
  intro l r
  have hl : Arithmetic (fun _ => 1) l (1 / [((2 : ℤ) : ℚ)].prod) := by
    refine .div (.cons (.param (js "x")) (.cons (.const 2) .nil)) fun d hd => ?_
    rw [List.mem_singleton.mp hd]
    norm_num
  have hsum : NoSumInverted idleJs l r := by
    refine ⟨.app ?_ ?_, .lit trivial, ?_⟩
    · intro d hd a p ha hp
      obtain rfl := List.mem_singleton.mp hd
      cases ha
      cases hp
      decide +kernel
    · intro e he
      rcases List.mem_cons.mp he with rfl | he
      · refine .app trivial fun e he => ?_
        rw [List.mem_singleton.mp he]
        exact .lit trivial
      · rw [List.mem_singleton.mp he]
        exact .lit trivial
    · intro lhs rhs hmoved hinv
      have hinverts : ((movedSides idleJs l r).toOption.any fun s =>
          s.any fun s => inverts s.1) = false := by decide +kernel
      rw [hmoved] at hinverts
      have hfalse : inverts lhs = false := hinverts
      rw [hfalse] at hinv
      cases hinv
  exact normalize_compare_iff (fun _ => rfl) .lt hl (.const 3) hsum

/-- `["<", ["/", 1, ["PARAM", "x"]], 2]` is true at -1, but it is rewritten to
`[">", ["PARAM", "x"], 0.5]`. -/
theorem normalize_compare_reciprocal :
    let e := Expr.app .lt [.app .div [.lit (some (.num (1 : ℤ))), .ofParam (js "x")],
      .lit (some (.num (2 : ℤ)))]
    let e' := Expr.app .gt [.ofParam (js "x"), .lit (some (.num (1 / 2)))]
    normalize idleJs e = .ok e'
      ∧ evaluate idleJs e (some fun _ => some (.num (-1))) none id = .ok (Expr.ofBool true)
      ∧ evaluate idleJs e' (some fun _ => some (.num (-1))) none id = .ok (Expr.ofBool false) := by
  decide +kernel

end GenieAcs
