import GenieAcs.ExpressionTruth
import GenieAcs.Normalize
import GenieAcs.ValueOrder
import Mathlib.Data.Rat.Lemmas

/-!
# Filters and their normal forms

A filter is built with AND, OR and NOT from parameters, null tests of a
parameter and comparisons of a parameter with a string or an integer.
Normalising it returns, the result is again of this shape (with the parameter
of a comparison to the left of an integer, and with literals `true` and
`false` where a conjunction or a disjunction had too few operands), and it has
the same truth value on every row.
-/

namespace GenieAcs

/-- What a filter compares a parameter with. -/
inductive Comparand : Value → Prop where
  | str (s : JsString) : Comparand (.str s)
  | int (z : ℤ) : Comparand (.num z)

inductive Filter : Expr → Prop where
  | param (p : JsString) : Filter (.ofParam p)
  | isNull (p : JsString) : Filter (.app .isNull [.ofParam p])
  | isNotNull (p : JsString) : Filter (.app .isNotNull [.ofParam p])
  | compare {op : Op} {v : Value} (hop : op.IsCompare) (p : JsString) (hv : Comparand v) :
      Filter (.app op [.ofParam p, .lit (some v)])
  | compareLeft {op : Op} {v : Value} (hop : op.IsCompare) (hv : Comparand v) (p : JsString) :
      Filter (.app op [.lit (some v), .ofParam p])
  | not {e : Expr} (h : Filter e) : Filter (.app .not [e])
  | and {es : List Expr} (h : ∀ e ∈ es, Filter e) : Filter (.app .and es)
  | or {es : List Expr} (h : ∀ e ∈ es, Filter e) : Filter (.app .or es)

/-- The normal forms of filters. -/
inductive Normal : Expr → Prop where
  | bool (b : Bool) : Normal (Expr.ofBool b)
  | param (p : JsString) : Normal (.ofParam p)
  | isNull (p : JsString) : Normal (.app .isNull [.ofParam p])
  | isNotNull (p : JsString) : Normal (.app .isNotNull [.ofParam p])
  | compare {op : Op} {v : Value} (hop : op.IsCompare) (p : JsString) (hv : Comparand v) :
      Normal (.app op [.ofParam p, .lit (some v)])
  | compareLeft {op : Op} (hop : op.IsCompare) (s p : JsString) :
      Normal (.app op [.lit (some (.str s)), .ofParam p])
  | not {e : Expr} (h : Normal e) : Normal (.app .not [e])
  | and {es : List Expr} (h : ∀ e ∈ es, Normal e) : Normal (.app .and es)
  | or {es : List Expr} (h : ∀ e ∈ es, Normal e) : Normal (.app .or es)

variable {J : Js}

/-! ## Every filter has a truth value -/

/-- A list of expressions that all mean something. -/
theorem means_list {obj : Lookup} {now : Option ℚ} {es : List Expr}
    (h : ∀ e ∈ es, ∃ t, Means J obj now e t) :
    ∃ ts, List.Forall₂ (Means J obj now) es ts := by
  induction es with
  | nil => exact ⟨[], List.Forall₂.nil⟩
  | cons e es ih =>
      obtain ⟨t, ht⟩ := h e (List.mem_cons_self ..)
      obtain ⟨ts, hts⟩ := ih fun e he => h e (List.mem_cons_of_mem _ he)
      exact ⟨t :: ts, List.Forall₂.cons ht hts⟩

theorem Normal.means {e : Expr} (h : Normal e) (obj : Lookup) (now : Option ℚ) :
    ∃ t, Means J obj now e t := by
  induction h with
  | bool b => exact ⟨_, Means.bool b⟩
  | param p => exact ⟨_, Means.param p⟩
  | isNull p => exact ⟨_, Means.isNull (Means.evaluate_param p)⟩
  | isNotNull p => exact ⟨_, Means.isNotNull (Means.evaluate_param p)⟩
  | compare hop p _ => exact ⟨_, Means.compare hop (Means.evaluate_param p) (evaluate_lit _)⟩
  | compareLeft hop s p =>
      exact ⟨_, Means.compare hop (evaluate_lit _) (Means.evaluate_param p)⟩
  | not _ ih =>
      obtain ⟨t, ht⟩ := ih
      exact ⟨_, ht.not⟩
  | and _ ih =>
      obtain ⟨ts, hts⟩ := means_list ih
      exact ⟨_, Means.and hts⟩
  | or _ ih =>
      obtain ⟨ts, hts⟩ := means_list ih
      exact ⟨_, Means.or hts⟩

theorem Normal.means_exprTruth {e : Expr} (h : Normal e) (obj : Lookup) (now : Option ℚ) :
    Means J obj now e (exprTruth J obj now e) := by
  obtain ⟨t, ht⟩ := h.means (J := J) obj now
  rw [ht.exprTruth_eq]
  exact ht

theorem means_exprTruth_list {obj : Lookup} {now : Option ℚ} {es : List Expr}
    (h : ∀ e ∈ es, Normal e) :
    List.Forall₂ (Means J obj now) es (es.map (exprTruth J obj now)) := by
  rw [List.forall₂_map_right_iff, List.forall₂_same]
  exact fun e he => (h e he).means_exprTruth obj now

/-! ## The walk of `normalize` without CASE -/

/-- The expression normalises to another one, and not to a polynomial or a CASE. -/
def NormalizesTo (J : Js) (e e' : Expr) : Prop :=
  e.map (normalizeCallback J) = .ok (.arm (.expr e'))

theorem NormalizesTo.normalize_eq {e e' : Expr} (h : NormalizesTo J e e') :
    normalize J e = .ok e' := by
  rw [NormalizesTo] at h
  rw [normalize, h]
  rfl

/-- One more argument for each choice of branches. -/
def addArgument (res : List (Expr × List Arm)) : NExpr → List (Expr × List Arm)
  | .arm a => res.map fun r => (r.1, r.2 ++ [a])
  | .case arms => (branches arms).flatMap fun wt =>
      res.map fun r => (Expr.and wt.1 r.1, r.2 ++ [wt.2])

theorem permutations_eq (ns : List NExpr) :
    permutations ns = ns.foldl addArgument [(Expr.ofBool true, [])] := rfl

theorem foldl_arms (as : List Arm) (w : Expr) (before : List Arm) :
    (as.map NExpr.arm).foldl addArgument [(w, before)] = [(w, before ++ as)] := by
  induction as generalizing before with
  | nil => simp
  | cons a as ih =>
      rw [List.map_cons, List.foldl_cons]
      exact (ih (before ++ [a])).trans (by rw [List.append_assoc]; rfl)

theorem permutations_arms (as : List Arm) :
    permutations (as.map .arm) = [(Expr.ofBool true, as)] := by
  rw [permutations_eq, foldl_arms, List.nil_append]

theorem normalizeArgs_arms {op : Op} {as : List Arm} {a : Arm}
    (h : normalizePlain J op as = .ok a) :
    normalizeArgs J op (as.map .arm) = .ok (.arm a) := by
  rw [normalizeArgs, permutations_arms]
  simp only [List.mapM_cons, List.mapM_nil, h]
  rfl

/-- An operator without CASE whose arguments normalise to expressions. -/
theorem normalizesTo_app {op : Op} {es es' : List Expr} {e : Expr}
    (hes : List.Forall₂ (NormalizesTo J) es es') (hcase : op ≠ .case) (hfunc : op ≠ .func)
    (h : normalizePlain J op (es'.map .expr) = .ok (.expr e)) :
    NormalizesTo J (.app op es) e := by
  have hargs : List.Forall₂ (fun e t => e.map (normalizeCallback J) = .ok t) es
      ((es'.map Arm.expr).map NExpr.arm) := by
    rw [List.forall₂_map_right_iff, List.forall₂_map_right_iff]
    exact hes
  rw [NormalizesTo, map_app hargs]
  have hplain := normalizeArgs_arms h
  cases op <;> first | exact absurd rfl hcase | exact absurd rfl hfunc | exact hplain

theorem normalizesTo_lit (v : Option Value) : NormalizesTo J (.lit v) (.lit v) := rfl

theorem restore_exprs (es : List Expr) : (es.map Arm.expr).mapM Arm.restore = .ok es := by
  induction es with
  | nil => rfl
  | cons e es ih =>
      rw [List.map_cons, List.mapM_cons, ih]
      rfl

theorem restoreAndEvaluate_exprs {op : Op} {es : List Expr} {e : Expr}
    (h : evaluateCallback J op es = .ok e) :
    restoreAndEvaluate J op (es.map .expr) = .ok (.expr e) := by
  rw [restoreAndEvaluate, restore_exprs]
  change (evaluateCallback J op es >>= fun e => pure (Arm.expr e)) = _
  rw [h]
  rfl

theorem normalizesTo_param (p : JsString) : NormalizesTo J (.ofParam p) (.ofParam p) :=
  normalizesTo_app (List.Forall₂.cons (normalizesTo_lit _) List.Forall₂.nil) (by decide)
    (by decide) (restoreAndEvaluate_exprs rfl)

/-! ## Comparisons with an integer -/

theorem fromConstant_int (z : ℤ) : Polynomial.fromConstant (z : ℚ) = [⟨[], z, 1⟩] := by
  have hneg : ((z : ℚ) < 0) ↔ z < 0 := by exact_mod_cast Iff.rfl
  have hnum : (if z < 0 then -((z.natAbs : ℤ) / 1) else (z.natAbs : ℤ) / 1) = z := by
    split_ifs <;> omega
  unfold Polynomial.fromConstant
  simp only [Rat.den_intCast, Rat.num_intCast, hneg, Nat.cast_one, hnum, if_true]

theorem findGcd_one (z : ℤ) : findGcd z 1 = 1 := by
  rw [findGcd, if_neg (by decide), Int.tmod_one, findGcd, if_pos rfl]

theorem findGcd_neg_one (z : ℤ) : findGcd z (-1) = -1 := by
  rw [findGcd, if_neg (by decide), Int.tmod_neg, Int.tmod_one, findGcd, if_pos rfl]

theorem reducedTerm_one (i : Indeterminates) (z : ℤ) : reducedTerm i z 1 = .ok ⟨i, z, 1⟩ := by
  rw [reducedTerm, findGcd_one]
  simp [bigDiv, pure, Except.pure, bind, Except.bind]

theorem reducedTerm_neg_one (i : Indeterminates) (z : ℤ) :
    reducedTerm i z (-1) = .ok ⟨i, -z, 1⟩ := by
  rw [reducedTerm, findGcd_neg_one]
  simp [bigDiv, pure, Except.pure, bind, Except.bind]

/-- The constant `z` as a polynomial without terms that are 0. -/
def constantTerms (z : ℤ) : Polynomial := if z = 0 then [] else [⟨[], z, 1⟩]

theorem constantTerms_toExpression (z : ℤ) :
    (constantTerms z).toExpression = .ok (.lit (some (.num z))) := by
  unfold constantTerms
  split_ifs with h
  · subst h
    rfl
  · simp [Polynomial.toExpression, Polynomial.termExpression, bind, Except.bind, pure, Except.pure]

theorem fromIndeterminate_toExpression (e : Expr) :
    (Polynomial.fromIndeterminate e).toExpression = .ok e := by
  simp [Polynomial.toExpression, Polynomial.termExpression, Polynomial.fromIndeterminate,
    Polynomial.powerFactors, bind, Except.bind, pure, Except.pure]

/-- A power of one key comes before a constant. -/
theorem before_constant (k : Expr × ℤ) (n d n' d' : ℤ) :
    Polynomial.before J ⟨[k], n, d⟩ ⟨[], n', d'⟩ := by
  simp [Polynomial.before, Indeterminates.compare]

theorem not_before_power (k : Expr × ℤ) (n d n' d' : ℤ) :
    ¬ Polynomial.before J ⟨[], n', d'⟩ ⟨[k], n, d⟩ := by
  simp [Polynomial.before, Indeterminates.compare]

theorem before_constants (n d n' d' : ℤ) :
    Polynomial.before J ⟨[], n, d⟩ ⟨[], n', d'⟩ := by
  simp [Polynomial.before, Indeterminates.compare, Indeterminates.compareKeys]

theorem simplify_one (t : Term) : Polynomial.simplifyTerms J [t]
    = .ok ([t].filter fun t => t.coefficientNumerator ≠ 0) := rfl

/-- A power and a constant, in either order. -/
theorem simplify_two (k : Expr × ℤ) (n d n' d' : ℤ) :
    Polynomial.simplifyTerms J [⟨[k], n, d⟩, ⟨[], n', d'⟩]
      = .ok (([⟨[k], n, d⟩, ⟨[], n', d'⟩] : List Term).filter
          fun t => t.coefficientNumerator ≠ 0)
    ∧ Polynomial.simplifyTerms J [⟨[], n', d'⟩, ⟨[k], n, d⟩]
      = .ok (([⟨[k], n, d⟩, ⟨[], n', d'⟩] : List Term).filter
          fun t => t.coefficientNumerator ≠ 0) := by
  have hne : Indeterminates.compare J [k] [] ≠ .eq := by simp [Indeterminates.compare]
  have hmerge : Polynomial.mergeTerms J ⟨[k], n, d⟩ [⟨[], n', d'⟩]
      = .ok [⟨[k], n, d⟩, ⟨[], n', d'⟩] := by
    rw [Polynomial.mergeTerms, if_neg hne]
    rfl
  constructor
  · rw [Polynomial.simplifyTerms, List.insertionSort_cons, List.insertionSort_cons,
      List.insertionSort_nil, List.orderedInsert_nil, List.orderedInsert,
      if_pos (before_constant k n d n' d')]
    simp only [hmerge]
    rfl
  · rw [Polynomial.simplifyTerms, List.insertionSort_cons, List.insertionSort_cons,
      List.insertionSort_nil, List.orderedInsert_nil, List.orderedInsert,
      if_neg (not_before_power k n d n' d'), List.orderedInsert_nil]
    simp only [hmerge]
    rfl

/-- A constant and its opposite cancel. -/
theorem simplify_cancel (k : Expr × ℤ) (n z : ℤ) (hn : n ≠ 0) :
    Polynomial.simplifyTerms J [⟨[k], n, 1⟩, ⟨[], z, 1⟩, ⟨[], -z, 1⟩]
      = .ok [⟨[k], n, 1⟩] := by
  have hne : Indeterminates.compare J [k] [] ≠ .eq := by simp [Indeterminates.compare]
  have heq : Indeterminates.compare J [] [] = .eq := by
    simp [Indeterminates.compare, Indeterminates.compareKeys]
  have hmerge : Polynomial.mergeTerms J ⟨[k], n, 1⟩ [⟨[], z, 1⟩, ⟨[], -z, 1⟩]
      = .ok [⟨[k], n, 1⟩, ⟨[], 0, 1⟩, ⟨[], 0, 1⟩] := by
    rw [Polynomial.mergeTerms, if_neg hne, Polynomial.mergeTerms, if_pos heq]
    simp only [mul_one, add_neg_cancel, reducedTerm_one]
    rfl
  rw [Polynomial.simplifyTerms, List.insertionSort_cons, List.insertionSort_cons,
    List.insertionSort_cons, List.insertionSort_nil, List.orderedInsert_nil, List.orderedInsert,
    if_pos (before_constants z 1 (-z) 1), List.orderedInsert, if_pos (before_constant k n 1 z 1)]
  simp only [hmerge]
  simp [bind, Except.bind, pure, Except.pure, hn]

theorem multiply_one (i : Indeterminates) (hi : i.length ≤ 1) (z : ℤ) (hz : z ≠ 0) :
    Polynomial.multiply J [⟨i, z, 1⟩] [⟨[], 1, 1⟩] = .ok [⟨i, z, 1⟩] := by
  have hm : Indeterminates.multiply J i [] = i := by
    match i, hi with
    | [], _ => rfl
    | [k], _ => rfl
  simp only [Polynomial.multiply, List.mapM_cons, List.mapM_nil, hm, mul_one, reducedTerm_one]
  change Polynomial.simplifyTerms J [⟨i, z, 1⟩] = _
  rw [simplify_one]
  simp [hz]

theorem multiply_neg_one (i : Indeterminates) (hi : i.length ≤ 1) (z : ℤ) (hz : z ≠ 0) :
    Polynomial.multiply J [⟨i, z, 1⟩] [⟨[], 1, -1⟩] = .ok [⟨i, -z, 1⟩] := by
  have hm : Indeterminates.multiply J i [] = i := by
    match i, hi with
    | [], _ => rfl
    | [k], _ => rfl
  simp only [Polynomial.multiply, List.mapM_cons, List.mapM_nil, hm, mul_one, one_mul,
    reducedTerm_neg_one]
  change Polynomial.simplifyTerms J [⟨i, -z, 1⟩] = _
  rw [simplify_one]
  simp [hz]

theorem multiply_nil (p : Polynomial) : Polynomial.multiply J [] p = .ok [] := rfl

theorem power_add_constants (k : Expr) (s z : ℤ) (hs : s ≠ 0) :
    Polynomial.add J (⟨[(k, 1)], s, 1⟩ :: constantTerms (-z)) (constantTerms z)
      = .ok [⟨[(k, 1)], s, 1⟩] := by
  unfold constantTerms Polynomial.add
  by_cases hz : z = 0
  · subst hz
    rw [neg_zero, if_pos rfl, List.append_nil, simplify_one]
    simp [hs]
  · have h := simplify_cancel (J := J) (k, 1) s (-z) hs
    rw [neg_neg] at h
    rw [if_neg hz, if_neg (neg_ne_zero.mpr hz)]
    exact h

theorem negation_constantTerms (z : ℤ) :
    Polynomial.negation (constantTerms (-z)) = constantTerms z := by
  unfold constantTerms
  by_cases hz : z = 0
  · subst hz
    rfl
  · rw [if_neg hz, if_neg (neg_ne_zero.mpr hz)]
    simp [Polynomial.negation]

theorem constant_power (k : Expr) (s z : ℤ) :
    Polynomial.constant (⟨[(k, 1)], s, 1⟩ :: constantTerms z) = constantTerms z := by
  unfold constantTerms
  split_ifs <;> simp [Polynomial.constant]

/-- What `compareSides` does once the difference of the sides is a parameter,
with sign `s`, and a constant. -/
theorem compareSides_of_subtract {op : Op} {lhs rhs : Polynomial} {k : Expr} {s z : ℤ}
    (hs : s = 1 ∨ s = -1)
    (h : lhs.subtract J rhs = .ok (⟨[(k, 1)], s, 1⟩ :: constantTerms (-(s * z)))) :
    compareSides J op lhs rhs
      = .ok (.inr (if s < 0 then swappedOp op else op, Polynomial.fromIndeterminate k,
          constantTerms z)) := by
  have hs0 : s ≠ 0 := by rcases hs with rfl | rfl <;> decide
  rw [compareSides, h]
  simp only [bind, Except.bind]
  rw [constant_power, negation_constantTerms, power_add_constants k s (s * z) hs0]
  have hpow : Polynomial.multiply J [⟨[(k, 1)], s, 1⟩] [⟨[], 1, s⟩]
      = .ok (Polynomial.fromIndeterminate k) := by
    rcases hs with rfl | rfl
    · exact multiply_one _ (by simp) 1 (by decide)
    · exact multiply_neg_one _ (by simp) (-1) (by decide)
  have hconst : Polynomial.multiply J (constantTerms (s * z)) [⟨[], 1, s⟩]
      = .ok (constantTerms z) := by
    unfold constantTerms
    by_cases hz : z = 0
    · subst hz
      rw [mul_zero, if_pos rfl, multiply_nil]
    · rw [if_neg (mul_ne_zero hs0 hz), if_neg hz]
      rcases hs with rfl | rfl
      · rw [one_mul]
        exact multiply_one _ (by simp) z hz
      · rw [multiply_neg_one _ (by simp) _ (mul_ne_zero hs0 hz)]
        simp
  simp only [hpow, hconst]
  rcases hs with rfl | rfl <;>
    simp [Polynomial.fromIndeterminate, pure, Except.pure]

theorem constantTerms_cons_filter (t : Term) (z : ℤ) (ht : t.coefficientNumerator ≠ 0) :
    ([t, ⟨[], z, 1⟩] : List Term).filter (fun t => t.coefficientNumerator ≠ 0)
      = t :: constantTerms z := by
  unfold constantTerms
  split_ifs with hz <;> simp [ht, hz]

theorem compareSides_param {op : Op} (k : Expr) (z : ℤ) :
    compareSides J op (Polynomial.fromIndeterminate k) (Polynomial.fromConstant (z : ℚ))
      = .ok (.inr (op, Polynomial.fromIndeterminate k, constantTerms z)) := by
  refine compareSides_of_subtract (Or.inl rfl) ?_
  rw [fromConstant_int, Polynomial.subtract, Polynomial.add]
  change Polynomial.simplifyTerms J [⟨[(k, 1)], 1, 1⟩, ⟨[], z * -1, 1⟩] = _
  rw [(simplify_two (k, 1) 1 1 (z * -1) 1).1, constantTerms_cons_filter _ _ (by simp)]
  simp

theorem compareSides_constant {op : Op} (k : Expr) (z : ℤ) :
    compareSides J op (Polynomial.fromConstant (z : ℚ)) (Polynomial.fromIndeterminate k)
      = .ok (.inr (swappedOp op, Polynomial.fromIndeterminate k, constantTerms z)) := by
  refine compareSides_of_subtract (Or.inr rfl) ?_
  rw [fromConstant_int, Polynomial.subtract, Polynomial.add]
  change Polynomial.simplifyTerms J [⟨[], z, 1⟩, ⟨[(k, 1)], 1 * -1, 1⟩] = _
  rw [(simplify_two (k, 1) (1 * -1) 1 z 1).2, constantTerms_cons_filter _ _ (by simp)]
  simp

theorem normalizePlain_compare {op : Op} (hop : op.IsCompare) (args : List Arm) :
    normalizePlain J op args = normalizeCompare J op args := by
  cases hop <;> rfl

theorem evaluateCallback_compare {op : Op} (hop : op.IsCompare) (args : List Expr) :
    evaluateCallback J op args = .ok (evaluateCompare op args) := by
  cases hop <;> rfl

theorem Op.IsCompare.swapped {op : Op} (hop : op.IsCompare) : (swappedOp op).IsCompare := by
  cases hop <;> constructor

/-- The polynomials restored, the comparison is kept. -/
theorem restore_sides {op : Op} (hop : op.IsCompare) (p : JsString) (z : ℤ) :
    restoreAndEvaluate J op
        [.poly (Polynomial.fromIndeterminate (.ofParam p)), .poly (constantTerms z)]
      = .ok (.expr (.app op [.ofParam p, .lit (some (.num z))])) := by
  rw [restoreAndEvaluate, List.mapM_cons, List.mapM_cons, List.mapM_nil, Arm.restore, Arm.restore,
    fromIndeterminate_toExpression, constantTerms_toExpression]
  change (evaluateCallback J op [.ofParam p, .lit (some (.num z))]
    >>= fun e => pure (Arm.expr e)) = _
  rw [evaluateCallback_compare hop]
  rfl

theorem normalizeCompare_param {op : Op} (hop : op.IsCompare) (p : JsString) {v : Value}
    (hv : Comparand v) :
    normalizeCompare J op [.expr (.ofParam p), .expr (.lit (some v))]
      = .ok (.expr (.app op [.ofParam p, .lit (some v)])) := by
  cases hv with
  | str s =>
      refine (@restoreAndEvaluate_exprs J op [.ofParam p, .lit (some (.str s))] _ ?_)
      exact evaluateCallback_compare hop _
  | int z =>
      change (compareSides J op (Polynomial.fromIndeterminate (.ofParam p))
        (Polynomial.fromConstant (z : ℚ)) >>= _) = _
      rw [compareSides_param]
      exact restore_sides hop p z

theorem normalizeCompare_str {op : Op} (hop : op.IsCompare) (s p : JsString) :
    normalizeCompare J op [.expr (.lit (some (.str s))), .expr (.ofParam p)]
      = .ok (.expr (.app op [.lit (some (.str s)), .ofParam p])) := by
  refine (@restoreAndEvaluate_exprs J op [.lit (some (.str s)), .ofParam p] _ ?_)
  exact evaluateCallback_compare hop _

theorem normalizeCompare_int {op : Op} (hop : op.IsCompare) (z : ℤ) (p : JsString) :
    normalizeCompare J op [.expr (.lit (some (.num z))), .expr (.ofParam p)]
      = .ok (.expr (.app (swappedOp op) [.ofParam p, .lit (some (.num z))])) := by
  change (compareSides J op (Polynomial.fromConstant (z : ℚ))
    (Polynomial.fromIndeterminate (.ofParam p)) >>= _) = _
  rw [compareSides_constant]
  exact restore_sides hop.swapped p z

/-- A comparison read from the other side. -/
theorem compareTruth_swapped {op : Op} (hop : op.IsCompare) (v w : Option Value) :
    compareTruth (swappedOp op) w v = compareTruth op v w := by
  rcases v with _ | v <;> rcases w with _ | w
  · rfl
  · rfl
  · rfl
  · rw [compareTruth, compareTruth, Value.compare_swap v w]
    cases hop <;> rcases v.compare w with _ | _ | _ <;> rfl

/-! ## Conjunction, disjunction and negation -/

section

variable {obj : Lookup} {now : Option ℚ}

theorem exprTruth_and {es : List Expr} (h : ∀ e ∈ es, Normal e) :
    exprTruth J obj now (.app .and es) = Kleene.all (es.map (exprTruth J obj now)) :=
  (Means.and (means_exprTruth_list h)).exprTruth_eq

theorem exprTruth_or {es : List Expr} (h : ∀ e ∈ es, Normal e) :
    exprTruth J obj now (.app .or es) = Kleene.any (es.map (exprTruth J obj now)) :=
  (Means.or (means_exprTruth_list h)).exprTruth_eq

theorem exprTruth_not {e : Expr} (h : Normal e) :
    exprTruth J obj now (.app .not [e]) = Kleene.neg (exprTruth J obj now e) :=
  (h.means_exprTruth obj now).not.exprTruth_eq

theorem exprTruth_bool (b : Bool) : exprTruth J obj now (Expr.ofBool b) = some b := rfl

end

/-- What AND and OR look at in an operand. -/
theorem Normal.shape {e : Expr} (h : Normal e) :
    (∃ b, e = Expr.ofBool b) ∨ (∃ es, e = .app .and es ∧ ∀ e ∈ es, Normal e)
      ∨ (∃ es, e = .app .or es ∧ ∀ e ∈ es, Normal e)
      ∨ ∃ op es, e = .app op es ∧ op ≠ .and ∧ op ≠ .or := by
  have hcmp : ∀ {op : Op}, op.IsCompare → op ≠ .and ∧ op ≠ .or := by
    intro op hop
    cases hop <;> decide
  cases h with
  | bool b => exact Or.inl ⟨b, rfl⟩
  | and h => exact Or.inr (Or.inl ⟨_, rfl, h⟩)
  | or h => exact Or.inr (Or.inr (Or.inl ⟨_, rfl, h⟩))
  | compare hop p hv => exact Or.inr (Or.inr (Or.inr ⟨_, _, rfl, hcmp hop⟩))
  | compareLeft hop s p => exact Or.inr (Or.inr (Or.inr ⟨_, _, rfl, hcmp hop⟩))
  | _ => exact Or.inr (Or.inr (Or.inr ⟨_, _, rfl, by decide, by decide⟩))

theorem andArgs_app {op : Op} {as es : List Expr} (hop : op ≠ .and) :
    andArgs (.app op as :: es) = (andArgs es).map (.app op as :: ·) := by
  cases op <;> first | exact absurd rfl hop | rfl

theorem orArgs_app {op : Op} {as es : List Expr} (hop : op ≠ .or) :
    orArgs (.app op as :: es) = (orArgs es).map (.app op as :: ·) := by
  cases op <;> first | exact absurd rfl hop | rfl

/-- Without a false operand, the operands AND keeps say what all of them say. -/
theorem andArgs_normal {es : List Expr} (h : ∀ e ∈ es, Normal e)
    (hfalse : es.any Expr.isFalseLit = false) :
    ∃ es', andArgs es = some es' ∧ (∀ e ∈ es', Normal e) ∧ ∀ obj now,
      Kleene.all (es'.map (exprTruth J obj now)) = Kleene.all (es.map (exprTruth J obj now)) := by
  induction es with
  | nil => exact ⟨[], rfl, by simp, fun _ _ => rfl⟩
  | cons e es ih =>
      rw [List.any_cons, Bool.or_eq_false_iff] at hfalse
      have he := h e (List.mem_cons_self ..)
      obtain ⟨es', hes', hn, hsem⟩ := ih (fun e he => h e (List.mem_cons_of_mem _ he)) hfalse.2
      rcases he.shape with ⟨b, rfl⟩ | ⟨as, rfl, has⟩ | hother
      · cases b with
        | false => exact absurd hfalse.1 (by decide)
        | true =>
            refine ⟨es', hes', hn, fun obj now => ?_⟩
            rw [List.map_cons, Kleene.all_cons, hsem, exprTruth_bool]
            exact (Kleene.all_true_pair _).symm
      · refine ⟨as ++ es', by simp [andArgs, hes'], ?_, fun obj now => ?_⟩
        · exact fun e he => (List.mem_append.mp he).elim (has e) (hn e)
        · rw [List.map_append, Kleene.all_append, hsem, ← exprTruth_and has, ← Kleene.all_cons]
          rfl
      · have hop : ∃ op as, e = .app op as ∧ op ≠ .and := by
          rcases hother with ⟨as, rfl, _⟩ | ⟨op, as, rfl, hop, _⟩
          · exact ⟨_, _, rfl, by decide⟩
          · exact ⟨_, _, rfl, hop⟩
        obtain ⟨op, as, rfl, hop⟩ := hop
        refine ⟨.app op as :: es', by rw [andArgs_app hop, hes']; rfl, ?_, fun obj now => ?_⟩
        · exact List.forall_mem_cons.mpr ⟨he, hn⟩
        · rw [List.map_cons, Kleene.all_cons, hsem, ← Kleene.all_cons]
          rfl

/-- Unless an operand is the literal `true`, the operands OR keeps say what all
of them say. -/
theorem orArgs_normal {es : List Expr} (h : ∀ e ∈ es, Normal e) :
    (orArgs es = none ∧ Expr.ofBool true ∈ es) ∨
    ∃ es', orArgs es = some es' ∧ (∀ e ∈ es', Normal e) ∧ ∀ obj now,
      Kleene.any (es'.map (exprTruth J obj now)) = Kleene.any (es.map (exprTruth J obj now)) := by
  induction es with
  | nil => exact Or.inr ⟨[], rfl, by simp, fun _ _ => rfl⟩
  | cons e es ih =>
      have he := h e (List.mem_cons_self ..)
      rcases ih fun e he => h e (List.mem_cons_of_mem _ he) with ⟨hnone, hmem⟩ | hsome
      · refine Or.inl ⟨?_, List.mem_cons_of_mem _ hmem⟩
        rcases he.shape with ⟨b, rfl⟩ | ⟨as, rfl, _⟩ | ⟨as, rfl, _⟩ | ⟨op, as, rfl, _, hop⟩
        · cases b <;> simp [orArgs, Expr.ofBool, Expr.truthy, hnone]
        · simp [orArgs, hnone]
        · simp [orArgs, hnone]
        · rw [orArgs_app hop, hnone]
          rfl
      · obtain ⟨es', hes', hn, hsem⟩ := hsome
        rcases he.shape with ⟨b, rfl⟩ | hand | ⟨as, rfl, has⟩ | hother
        · cases b with
          | true => exact Or.inl ⟨rfl, List.mem_cons_self ..⟩
          | false =>
              refine Or.inr ⟨es', hes', hn, fun obj now => ?_⟩
              rw [List.map_cons, Kleene.any_cons, hsem, exprTruth_bool]
              exact (Kleene.any_false_pair _).symm
        · obtain ⟨as, rfl, _⟩ := hand
          refine Or.inr ⟨.app .and as :: es', by simp [orArgs, hes'],
            List.forall_mem_cons.mpr ⟨he, hn⟩, fun obj now => ?_⟩
          rw [List.map_cons, Kleene.any_cons, hsem, ← Kleene.any_cons]
          rfl
        · refine Or.inr ⟨as ++ es', by simp [orArgs, hes'], ?_, fun obj now => ?_⟩
          · exact fun e he => (List.mem_append.mp he).elim (has e) (hn e)
          · rw [List.map_append, Kleene.any_append, hsem, ← exprTruth_or has, ← Kleene.any_cons]
            rfl
        · obtain ⟨op, as, rfl, _, hop⟩ := hother
          refine Or.inr ⟨.app op as :: es', by rw [orArgs_app hop, hes']; rfl,
            List.forall_mem_cons.mpr ⟨he, hn⟩, fun obj now => ?_⟩
          rw [List.map_cons, Kleene.any_cons, hsem, ← Kleene.any_cons]
          rfl

/-- A normal form with the truth value `t` has on every row. -/
def NormalWith (J : Js) (e : Expr) (t : Lookup → Option ℚ → Option Bool) : Prop :=
  Normal e ∧ ∀ obj now, exprTruth J obj now e = t obj now

theorem normal_evaluateAnd {es : List Expr} (h : ∀ e ∈ es, Normal e) :
    NormalWith J (evaluateAnd es) fun obj now => Kleene.all (es.map (exprTruth J obj now)) := by
  unfold evaluateAnd
  split_ifs with hf
  · refine ⟨Normal.bool _, fun obj now => ?_⟩
    obtain ⟨e, he, hfalse⟩ := List.any_eq_true.mp hf
    have hlit : exprTruth J obj now e = some false := by
      rcases (h e he).shape with ⟨b, rfl⟩ | ⟨as, rfl, _⟩ | ⟨as, rfl, _⟩ | ⟨op, as, rfl, _⟩
      · cases b
        · rfl
        · exact absurd hfalse (by decide)
      all_goals exact absurd hfalse (by simp [Expr.isFalseLit, Expr.truthy])
    rw [exprTruth_bool]
    exact (Kleene.all_eq_false.mpr (hlit ▸ List.mem_map_of_mem he)).symm
  · obtain ⟨es', hes', hn, hsem⟩ := andArgs_normal (J := J) h (by simpa using hf)
    rw [hes']
    rcases es' with - | ⟨e, - | ⟨f, es'⟩⟩
    · exact ⟨Normal.bool true, fun obj now => hsem obj now⟩
    · have hn' : ∀ x ∈ [e, Expr.ofBool true], Normal x :=
        List.forall_mem_cons.mpr ⟨hn e (List.mem_singleton.mpr rfl),
          List.forall_mem_singleton.mpr (Normal.bool true)⟩
      refine ⟨Normal.and hn', fun obj now => ?_⟩
      rw [exprTruth_and hn']
      refine Eq.trans ?_ (hsem obj now)
      exact (Kleene.all_pair_true _).trans (Kleene.all_singleton _).symm
    · refine ⟨Normal.and hn, fun obj now => ?_⟩
      rw [exprTruth_and hn, hsem]

theorem normal_evaluateOr {es : List Expr} (h : ∀ e ∈ es, Normal e) :
    NormalWith J (evaluateOr es) fun obj now => Kleene.any (es.map (exprTruth J obj now)) := by
  unfold evaluateOr
  rcases orArgs_normal (J := J) h with ⟨hnone, hmem⟩ | ⟨es', hes', hn, hsem⟩
  · rw [hnone]
    refine ⟨Normal.bool true, fun obj now => ?_⟩
    have hone : exprTruth J obj now (Expr.ofBool true) ∈ es.map (exprTruth J obj now) :=
      List.mem_map_of_mem hmem
    exact (Kleene.any_eq_true.mpr hone).symm
  · rw [hes']
    match es', hn, hsem with
    | [], _, hsem =>
        have hnull : es.any (decide <| · = Expr.null) = false := by
          rw [List.any_eq_false]
          intro e he
          rcases (h e he).shape with ⟨b, rfl⟩ | ⟨as, rfl, _⟩ | ⟨as, rfl, _⟩ | ⟨op, as, rfl, _⟩ <;>
            simp [Expr.ofBool, Expr.null]
        simp only [hnull, Bool.false_eq_true, if_false]
        exact ⟨Normal.bool false, fun obj now => hsem obj now⟩
    | [e], hn, hsem =>
        have hn' : ∀ x ∈ [e, Expr.ofBool false], Normal x :=
          List.forall_mem_cons.mpr ⟨hn e (List.mem_singleton.mpr rfl),
            List.forall_mem_singleton.mpr (Normal.bool false)⟩
        refine ⟨Normal.or hn', fun obj now => ?_⟩
        rw [exprTruth_or hn']
        refine Eq.trans ?_ (hsem obj now)
        exact (Kleene.any_pair_false _).trans (Kleene.any_singleton _).symm
    | e :: f :: es', hn, hsem =>
        refine ⟨Normal.or hn, fun obj now => ?_⟩
        rw [exprTruth_or hn, hsem]

theorem normal_evaluateNot {e : Expr} (h : Normal e) :
    NormalWith J (evaluateNot [e]) fun obj now => Kleene.neg (exprTruth J obj now e) := by
  have hkeep : evaluateNot [e] = .app .not [e] →
      NormalWith J (evaluateNot [e]) fun obj now => Kleene.neg (exprTruth J obj now e) := by
    intro heq
    rw [heq]
    exact ⟨Normal.not h, fun obj now => exprTruth_not h⟩
  cases h with
  | bool b => exact ⟨Normal.bool (!b), fun obj now => rfl⟩
  | not h =>
      refine ⟨h, fun obj now => ?_⟩
      simp only [exprTruth_not h, Kleene.neg_neg]
      rfl
  | compare hop p hv => cases hop <;> exact hkeep rfl
  | compareLeft hop s p => cases hop <;> exact hkeep rfl
  | _ => exact hkeep rfl

/-! ## Every filter normalises -/

/-- The expression normalises to a normal form that means the same everywhere. -/
def Normalises (J : Js) (e : Expr) : Prop :=
  ∃ e', NormalizesTo J e e' ∧ Normal e' ∧ ∀ obj now, Means J obj now e (exprTruth J obj now e')

theorem normalises_list {es : List Expr} (h : ∀ e ∈ es, Normalises J e) :
    ∃ es', List.Forall₂ (NormalizesTo J) es es' ∧ (∀ e ∈ es', Normal e) ∧ ∀ obj now,
      List.Forall₂ (Means J obj now) es (es'.map (exprTruth J obj now)) := by
  induction es with
  | nil => exact ⟨[], List.Forall₂.nil, by simp, fun _ _ => List.Forall₂.nil⟩
  | cons e es ih =>
      obtain ⟨e', hto, hn, hsem⟩ := h e (List.mem_cons_self ..)
      obtain ⟨es', htos, hns, hsems⟩ := ih fun e he => h e (List.mem_cons_of_mem _ he)
      exact ⟨e' :: es', List.Forall₂.cons hto htos, List.forall_mem_cons.mpr ⟨hn, hns⟩,
        fun obj now => List.Forall₂.cons (hsem obj now) (hsems obj now)⟩

/-- A leaf that normalises to itself. -/
theorem Normal.normalises {e : Expr} (h : Normal e) (hto : NormalizesTo J e e) :
    Normalises J e :=
  ⟨e, hto, h, h.means_exprTruth⟩

theorem normalizesTo_nullTest {op : Op} (hop : op = .isNull ∨ op = .isNotNull) (p : JsString) :
    NormalizesTo J (.app op [.ofParam p]) (.app op [.ofParam p]) := by
  refine normalizesTo_app (List.Forall₂.cons (normalizesTo_param p) List.Forall₂.nil) ?_ ?_ ?_
  · rcases hop with rfl | rfl <;> decide
  · rcases hop with rfl | rfl <;> decide
  · rcases hop with rfl | rfl <;> exact restoreAndEvaluate_exprs rfl

theorem normalizesTo_compare {op : Op} (hop : op.IsCompare) {e f e' f' r : Expr}
    (he : NormalizesTo J e e') (hf : NormalizesTo J f f')
    (h : normalizeCompare J op [.expr e', .expr f'] = .ok (.expr r)) :
    NormalizesTo J (.app op [e, f]) r := by
  refine normalizesTo_app (List.Forall₂.cons he (List.Forall₂.cons hf List.Forall₂.nil)) ?_ ?_ ?_
  · cases hop <;> decide
  · cases hop <;> decide
  · rw [normalizePlain_compare hop]
    exact h

theorem Filter.normalises {e : Expr} (h : Filter e) : Normalises J e := by
  induction h with
  | param p => exact (Normal.param p).normalises (normalizesTo_param p)
  | isNull p => exact (Normal.isNull p).normalises (normalizesTo_nullTest (Or.inl rfl) p)
  | isNotNull p => exact (Normal.isNotNull p).normalises (normalizesTo_nullTest (Or.inr rfl) p)
  | compare hop p hv =>
      exact (Normal.compare hop p hv).normalises
        (normalizesTo_compare hop (normalizesTo_param p) (normalizesTo_lit _)
          (normalizeCompare_param hop p hv))
  | compareLeft hop hv p =>
      cases hv with
      | str s =>
          exact (Normal.compareLeft hop s p).normalises
            (normalizesTo_compare hop (normalizesTo_lit _) (normalizesTo_param p)
              (normalizeCompare_str hop s p))
      | int z =>
          refine ⟨_, normalizesTo_compare hop (normalizesTo_lit _) (normalizesTo_param p)
            (normalizeCompare_int hop z p), Normal.compare hop.swapped p (Comparand.int z), ?_⟩
          intro obj now
          rw [(Means.compare hop.swapped (Means.evaluate_param p) (evaluate_lit _)).exprTruth_eq,
            compareTruth_swapped hop]
          exact Means.compare hop (evaluate_lit _) (Means.evaluate_param p)
  | not _ ih =>
      obtain ⟨e', hto, hn, hsem⟩ := ih
      obtain ⟨hn', hsem'⟩ := normal_evaluateNot (J := J) hn
      refine ⟨_, normalizesTo_app (List.Forall₂.cons hto List.Forall₂.nil) (by decide) (by decide)
        (restoreAndEvaluate_exprs rfl), hn', fun obj now => ?_⟩
      rw [hsem']
      exact (hsem obj now).not
  | and _ ih =>
      obtain ⟨es', hto, hn, hsem⟩ := normalises_list ih
      obtain ⟨hn', hsem'⟩ := normal_evaluateAnd (J := J) hn
      refine ⟨_, normalizesTo_app hto (by decide) (by decide) (restoreAndEvaluate_exprs rfl), hn',
        fun obj now => ?_⟩
      rw [hsem']
      exact Means.and (hsem obj now)
  | or _ ih =>
      obtain ⟨es', hto, hn, hsem⟩ := normalises_list ih
      obtain ⟨hn', hsem'⟩ := normal_evaluateOr (J := J) hn
      refine ⟨_, normalizesTo_app hto (by decide) (by decide) (restoreAndEvaluate_exprs rfl), hn',
        fun obj now => ?_⟩
      rw [hsem']
      exact Means.or (hsem obj now)

end GenieAcs
