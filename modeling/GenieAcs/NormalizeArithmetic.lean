import GenieAcs.Polynomials
import GenieAcs.Evaluates
import GenieAcs.ExpressionFilter

/-!
# Arithmetic in normal form

An arithmetic expression over integer constants and parameters has a value as
long as no divisor is zero, and evaluates to it. `normalize` turns it into a
polynomial with that value if it never divides by a sum, and a polynomial is
printed as an expression that evaluates to its value.
-/

namespace GenieAcs

/-! ## Arithmetic expressions -/

/-- Integer constants and parameters under `+`, `-`, `*` and `/`, and the value
over values for the parameters; there is none if a divisor is zero. -/
inductive Arithmetic (ρ : JsString → ℚ) : Expr → ℚ → Prop where
  | const (z : ℤ) : Arithmetic ρ (.lit (some (.num z))) z
  | param (p : JsString) : Arithmetic ρ (.ofParam p) (ρ p)
  | add {e : Expr} {es : List Expr} {q : ℚ} {qs : List ℚ} :
      List.Forall₂ (Arithmetic ρ) (e :: es) (q :: qs) → Arithmetic ρ (.app .add (e :: es)) (q + qs.sum)
  | sub {e : Expr} {es : List Expr} {q : ℚ} {qs : List ℚ} :
      List.Forall₂ (Arithmetic ρ) (e :: es) (q :: qs) → Arithmetic ρ (.app .sub (e :: es)) (q - qs.sum)
  | mul {e : Expr} {es : List Expr} {q : ℚ} {qs : List ℚ} :
      List.Forall₂ (Arithmetic ρ) (e :: es) (q :: qs) → Arithmetic ρ (.app .mul (e :: es)) (q * qs.prod)
  | div {e : Expr} {es : List Expr} {q : ℚ} {qs : List ℚ} :
      List.Forall₂ (Arithmetic ρ) (e :: es) (q :: qs) → (∀ d ∈ qs, d ≠ 0) →
      Arithmetic ρ (.app .div (e :: es)) (q / qs.prod)

/-- A row on which the parameters have these values. -/
def Reads (ρ : JsString → ℚ) (obj : Lookup) : Prop := ∀ p, obj p = some (.num (ρ p))

variable {J : Js} {ρ : JsString → ℚ} {obj : Lookup} {now : Option ℚ}

theorem foldl_numStep {f : ℚ → ℚ → Option ℚ} {g : ℚ → ℚ → ℚ} {q : ℚ} {qs : List ℚ}
    (h : ∀ b ∈ qs, ∀ a, f a b = some (g a b)) :
    (qs.map fun b => some (Value.num b)).foldl (numStep J f) (some (.num q))
      = some (.num (qs.foldl g q)) := by
  induction qs generalizing q with
  | nil => rfl
  | cons b qs ih =>
      rw [List.map_cons, List.foldl_cons, numStep_some, toNumber_num, toNumber_num,
        h b List.mem_cons_self]
      exact ih fun b hb => h b (List.mem_cons_of_mem _ hb)

theorem foldl_add (q : ℚ) (qs : List ℚ) : qs.foldl (· + ·) q = q + qs.sum := by
  induction qs generalizing q with
  | nil => simp
  | cons b qs ih => rw [List.foldl_cons, ih, List.sum_cons, add_assoc]

theorem foldl_sub (q : ℚ) (qs : List ℚ) : qs.foldl (· - ·) q = q - qs.sum := by
  induction qs generalizing q with
  | nil => simp
  | cons b qs ih => rw [List.foldl_cons, ih, List.sum_cons, sub_sub]

theorem foldl_mul (q : ℚ) (qs : List ℚ) : qs.foldl (· * ·) q = q * qs.prod := by
  induction qs generalizing q with
  | nil => simp
  | cons b qs ih => rw [List.foldl_cons, ih, List.prod_cons, mul_assoc]

theorem foldl_div (q : ℚ) (qs : List ℚ) : qs.foldl (· / ·) q = q / qs.prod := by
  induction qs generalizing q with
  | nil => simp
  | cons b qs ih => rw [List.foldl_cons, ih, List.prod_cons, div_div]

/-- An operator of `reduce` on operands that are numbers. -/
theorem Evaluates.reduceNumbers {op : Op} {f : Value → Value → Nat → Option Expr}
    {step : ℚ → ℚ → Option ℚ} {g : ℚ → ℚ → ℚ} (hf : Folds f (numStep J step))
    (hop : ∀ args, evaluateNode J (some obj) now (.app op args) = .ok (reduce op (reduceWith f) args))
    {e : Expr} {es : List Expr} {q : ℚ} {qs : List ℚ}
    (h : List.Forall₂ (fun e q => Evaluates J obj now e (some (.num q))) (e :: es) (q :: qs))
    (hstep : ∀ b ∈ qs, ∀ a, step a b = some (g a b)) :
    Evaluates J obj now (.app op (e :: es)) (some (.num (qs.foldl g q))) := by
  have hvs : List.Forall₂ (Evaluates J obj now) (e :: es)
      ((q :: qs).map fun b => some (Value.num b)) := List.forall₂_map_right_iff.mpr h
  refine .app hvs ?_
  rw [hop, List.map_cons, hf.reduce_lits op (List.cons_ne_nil _ _), foldValues,
    foldl_numStep hstep]

theorem Arithmetic.evaluates (hobj : Reads ρ obj) {e : Expr} {q : ℚ} (h : Arithmetic ρ e q) :
    Evaluates J obj now e (some (.num q)) := by
  induction e using Expr.induction generalizing q with
  | lit v =>
      cases h with
      | const z => exact .lit _
  | app op args ih =>
      have hargs : ∀ {qs : List ℚ}, List.Forall₂ (Arithmetic ρ) args qs →
          List.Forall₂ (fun e q => Evaluates J obj now e (some (.num q))) args qs :=
        fun hqs => forall₂_imp_mem hqs fun e he q hq => ih e he hq
      cases h with
      | param p =>
          rw [← hobj p]
          exact .app (.cons (.lit (some (.str p))) .nil) rfl
      | add hqs =>
          rw [← foldl_add]
          exact .reduceNumbers (folds_add J) (fun _ => rfl) (hargs hqs) fun _ _ _ => rfl
      | sub hqs =>
          rw [← foldl_sub]
          exact .reduceNumbers (folds_sub J) (fun _ => rfl) (hargs hqs) fun _ _ _ => rfl
      | mul hqs =>
          rw [← foldl_mul]
          exact .reduceNumbers (folds_mul J) (fun _ => rfl) (hargs hqs) fun _ _ _ => rfl
      | div hqs hne =>
          rw [← foldl_div]
          exact .reduceNumbers (folds_div J) (fun _ => rfl) (hargs hqs)
            fun b hb _ => if_neg (hne b hb)

/-! ## From expressions to polynomials -/

/-- The values of the indeterminates. -/
def keyValue (ρ : JsString → ℚ) : Expr → ℚ
  | .app .param (.lit (some (.str p)) :: _) => ρ p
  | _ => 0

theorem keyValue_ofParam (p : JsString) : keyValue ρ (.ofParam p) = ρ p := rfl

/-- A normalised argument is the same polynomial for an arithmetic operator
and for a comparison; what is no polynomial for the latter is a parameter. -/
def Arm.Stands (J : Js) (a : Arm) (p : Polynomial) : Prop :=
  toPolynomial J a = some p ∧ (polynomialSide a).getD (indeterminateSide a) = p
    ∧ (polynomialSide a = none → ∃ x, a = .expr (.ofParam x))

/-- The number a normalised argument stands for. -/
def Arm.Denotes (J : Js) (ρ : JsString → ℚ) (a : Arm) (q : ℚ) : Prop :=
  ∃ p, a.Stands J p ∧ Polynomial.Proper J (keyValue ρ) p ∧ Polynomial.value (keyValue ρ) p = q

/-- No division in the expression divides by a polynomial of several terms. -/
def NoSumDivisor (J : Js) : Expr → Prop
  | .app .div (_ :: divisors) => ∀ d ∈ divisors, ∀ a p,
      d.map (normalizeCallback J) = .ok (.arm a) → toPolynomial J a = some p → p.length ≤ 1
  | _ => True

theorem fromConstant_spec (z : ℤ) :
    Polynomial.Proper J (keyValue ρ) (Polynomial.fromConstant z)
      ∧ Polynomial.value (keyValue ρ) (Polynomial.fromConstant z) = z := by
  rw [fromConstant_int]
  exact ⟨Polynomial.constantTerm_proper one_ne_zero, by simp [Polynomial.value_constantTerm]⟩

/-- Folding an operation that computes `g` on values. -/
theorem foldlM_spec {f : Polynomial → Polynomial → Except JsError Polynomial} {g : ℚ → ℚ → ℚ}
    {qs : List Polynomial} {p : Polynomial} (hp : p.Proper J (keyValue ρ))
    (hf : ∀ q ∈ qs, ∀ p, Polynomial.Proper J (keyValue ρ) p → ∃ r, f p q = .ok r
      ∧ Polynomial.Proper J (keyValue ρ) r
      ∧ r.value (keyValue ρ) = g (p.value (keyValue ρ)) (q.value (keyValue ρ))) :
    ∃ r, qs.foldlM f p = .ok r ∧ Polynomial.Proper J (keyValue ρ) r
      ∧ r.value (keyValue ρ)
        = (qs.map (Polynomial.value (keyValue ρ))).foldl g (p.value (keyValue ρ)) := by
  induction qs generalizing p with
  | nil => exact ⟨p, rfl, hp, rfl⟩
  | cons q qs ih =>
      obtain ⟨r, hr, hproper, hvalue⟩ := hf q List.mem_cons_self p hp
      obtain ⟨r', hr', hproper', hvalue'⟩ := ih hproper fun q hq => hf q (List.mem_cons_of_mem _ hq)
      refine ⟨r', ?_, hproper', ?_⟩
      · rw [List.foldlM_cons, hr]
        exact hr'
      · rw [hvalue', List.map_cons, List.foldl_cons, hvalue]

theorem toPolynomials_spec {as : List Arm} {qs : List ℚ}
    (h : List.Forall₂ (Arm.Denotes J ρ) as qs) :
    ∃ ps, toPolynomials J as = some ps
      ∧ List.Forall₂ (fun a p => toPolynomial J a = some p) as ps
      ∧ (∀ p ∈ ps, Polynomial.Proper J (keyValue ρ) p)
      ∧ ps.map (Polynomial.value (keyValue ρ)) = qs := by
  induction h with
  | nil => exact ⟨[], rfl, .nil, fun _ h => (nomatch h), rfl⟩
  | cons ha _ ih =>
      obtain ⟨p, ⟨hp, -⟩, hproper, rfl⟩ := ha
      obtain ⟨ps, hps, hall, hpropers, rfl⟩ := ih
      refine ⟨p :: ps, ?_, .cons hp hall, ?_, rfl⟩
      · unfold toPolynomials at hps ⊢
        rw [List.mapM_cons, hp, hps]
        rfl
      · intro q hq
        rcases List.mem_cons.mp hq with rfl | hq
        · exact hproper
        · exact hpropers q hq

/-- A polynomial as an argument stands for itself. -/
theorem denotes_poly {p : Polynomial} (hp : p.Proper J (keyValue ρ)) :
    Arm.Denotes J ρ (.poly p) (p.value (keyValue ρ)) :=
  ⟨p, ⟨rfl, rfl, fun h => (nomatch h)⟩, hp, rfl⟩

/-- `+` and `*` start from their identity. -/
theorem normalizeArithmetic_identity {f : Polynomial → Polynomial → Except JsError Polynomial}
    {g : ℚ → ℚ → ℚ} {identity : Polynomial} (hidentity : identity.Proper J (keyValue ρ))
    (hg : ∀ x, g (identity.value (keyValue ρ)) x = x)
    (hf : ∀ p q, Polynomial.Proper J (keyValue ρ) p → Polynomial.Proper J (keyValue ρ) q →
      ∃ r, f p q = .ok r ∧ Polynomial.Simplified J (keyValue ρ) r
        ∧ r.value (keyValue ρ) = g (p.value (keyValue ρ)) (q.value (keyValue ρ)))
    {a : Arm} {as : List Arm} {q : ℚ} {qs : List ℚ}
    (h : List.Forall₂ (Arm.Denotes J ρ) (a :: as) (q :: qs)) :
    ∃ r, normalizeArithmetic J f (some identity) (a :: as) = .ok (.poly r)
      ∧ Polynomial.Proper J (keyValue ρ) r ∧ r.value (keyValue ρ) = qs.foldl g q := by
  obtain ⟨ps, hps, -, hproper, hvalues⟩ := toPolynomials_spec h
  have hstep : ∀ q ∈ ps, ∀ p, Polynomial.Proper J (keyValue ρ) p → ∃ r, f p q = .ok r
      ∧ Polynomial.Proper J (keyValue ρ) r
      ∧ r.value (keyValue ρ) = g (p.value (keyValue ρ)) (q.value (keyValue ρ)) := by
    intro q hq p hp
    obtain ⟨r, hr, hsimple, hvalue⟩ := hf p q hp (hproper q hq)
    exact ⟨r, hr, hsimple.isProper, hvalue⟩
  obtain ⟨r, hr, hrproper, hvalue⟩ := foldlM_spec hidentity hstep
  refine ⟨r, ?_, hrproper, ?_⟩
  · rw [normalizeArithmetic, hps]
    simp only
    rw [hr]
    rfl
  · rw [hvalue, hvalues, List.foldl_cons, hg]

/-- `-` and `/` start from their first argument. -/
theorem normalizeArithmetic_first {f : Polynomial → Polynomial → Except JsError Polynomial}
    {g : ℚ → ℚ → ℚ} {a : Arm} {as : List Arm} {q : ℚ} {qs : List ℚ}
    (h : List.Forall₂ (Arm.Denotes J ρ) (a :: as) (q :: qs))
    (hf : ∀ b ∈ as, ∀ p, toPolynomial J b = some p → p.Proper J (keyValue ρ) →
      p.value (keyValue ρ) ∈ qs → ∀ r, Polynomial.Proper J (keyValue ρ) r →
        ∃ r', f r p = .ok r' ∧ Polynomial.Simplified J (keyValue ρ) r'
          ∧ r'.value (keyValue ρ) = g (r.value (keyValue ρ)) (p.value (keyValue ρ))) :
    ∃ r, normalizeArithmetic J f none (a :: as) = .ok (.poly r)
      ∧ Polynomial.Proper J (keyValue ρ) r ∧ r.value (keyValue ρ) = qs.foldl g q := by
  obtain ⟨ps, hps, hall, hproper, hvalues⟩ := toPolynomials_spec h
  cases hall with
  | @cons _ p _ ps ha hall =>
      rw [List.map_cons, List.cons.injEq] at hvalues
      obtain ⟨rfl, rfl⟩ := hvalues
      have hstep : ∀ q ∈ ps, ∀ r, Polynomial.Proper J (keyValue ρ) r → ∃ r', f r q = .ok r'
          ∧ Polynomial.Proper J (keyValue ρ) r'
          ∧ r'.value (keyValue ρ) = g (r.value (keyValue ρ)) (q.value (keyValue ρ)) := by
        intro q hq r hr
        obtain ⟨b, hb, hbq⟩ := exists_left_of_forall₂ hall hq
        obtain ⟨r', hr', hsimple, hvalue⟩ := hf b hb q hbq
          (hproper q (List.mem_cons_of_mem _ hq)) (List.mem_map_of_mem hq) r hr
        exact ⟨r', hr', hsimple.isProper, hvalue⟩
      obtain ⟨r, hr, hrproper, hvalue⟩ := foldlM_spec (hproper p List.mem_cons_self) hstep
      refine ⟨r, ?_, hrproper, hvalue⟩
      rw [normalizeArithmetic, hps]
      simp only
      rw [hr]
      rfl

/-- The arms of the arguments of an operator that is not CASE and no function. -/
theorem map_arms {op : Op} {es : List Expr} {as : List Arm} {a : Arm}
    (hes : List.Forall₂ (fun e a => e.map (normalizeCallback J) = .ok (.arm a)) es as)
    (hcase : op ≠ .case) (hfunc : op ≠ .func) (h : normalizePlain J op as = .ok a) :
    (Expr.app op es).map (normalizeCallback J) = .ok (.arm a) := by
  have hargs : List.Forall₂ (fun e t => e.map (normalizeCallback J) = .ok t) es
      (as.map NExpr.arm) := by
    rw [List.forall₂_map_right_iff]
    exact hes
  rw [map_app hargs]
  have hplain := normalizeArgs_arms h
  cases op <;> first | exact absurd rfl hcase | exact absurd rfl hfunc | exact hplain

/-- An arithmetic expression that does not divide by a sum is normalised to
something with its value. -/
theorem Arithmetic.normalizes {e : Expr} {q : ℚ} (h : Arithmetic ρ e q)
    (hdiv : Throughout (NoSumDivisor J) e) :
    ∃ a, e.map (normalizeCallback J) = .ok (.arm a) ∧ a.Denotes J ρ q := by
  induction e using Expr.induction generalizing q with
  | lit v =>
      cases h with
      | const z =>
          have hstands : (Arm.expr (.lit (some (.num z)))).Stands J (Polynomial.fromConstant z) :=
            ⟨rfl, rfl, fun h => (nomatch h)⟩
          exact ⟨_, rfl, _, hstands, fromConstant_spec z⟩
  | app op args ih =>
      cases hdiv with
      | app hnode hdivs =>
          have hargs : ∀ {qs : List ℚ}, List.Forall₂ (Arithmetic ρ) args qs →
              ∃ as, List.Forall₂ (fun e a => e.map (normalizeCallback J) = .ok (.arm a)) args as
                ∧ List.Forall₂ (Arm.Denotes J ρ) as qs := fun hqs =>
            forall₂_between (forall₂_imp_mem hqs fun e he q hq => ih e he hq (hdivs e he))
          cases h with
          | param p =>
              have hstands : (Arm.expr (.ofParam p)).Stands J
                  (Polynomial.fromIndeterminate (.ofParam p)) := ⟨rfl, rfl, fun _ => ⟨p, rfl⟩⟩
              exact ⟨_, normalizesTo_param p, _, hstands, Polynomial.fromIndeterminate_spec p⟩
          | add hqs =>
              obtain ⟨as, has, hden⟩ := hargs hqs
              cases hden with
              | cons hd hds =>
                  have hzero := @fromConstant_spec J ρ 0
                  obtain ⟨r, hr, hproper, hvalue⟩ := normalizeArithmetic_identity hzero.1
                    (fun x => by rw [hzero.2]; simp) (fun p q => Polynomial.add_spec) (.cons hd hds)
                  refine ⟨_, map_arms has Op.noConfusion Op.noConfusion hr, ?_⟩
                  rw [← foldl_add, ← hvalue]
                  exact denotes_poly hproper
          | mul hqs =>
              obtain ⟨as, has, hden⟩ := hargs hqs
              cases hden with
              | cons hd hds =>
                  have hone := @fromConstant_spec J ρ 1
                  obtain ⟨r, hr, hproper, hvalue⟩ := normalizeArithmetic_identity hone.1
                    (fun x => by rw [hone.2]; simp) (fun p q => Polynomial.multiply_spec)
                    (.cons hd hds)
                  refine ⟨_, map_arms has Op.noConfusion Op.noConfusion hr, ?_⟩
                  rw [← foldl_mul, ← hvalue]
                  exact denotes_poly hproper
          | sub hqs =>
              obtain ⟨as, has, hden⟩ := hargs hqs
              cases hden with
              | cons hd hds =>
                  obtain ⟨r, hr, hproper, hvalue⟩ := normalizeArithmetic_first (.cons hd hds)
                    fun b _ p _ hp _ r hr => Polynomial.subtract_spec hr hp
                  refine ⟨_, map_arms has Op.noConfusion Op.noConfusion hr, ?_⟩
                  rw [← foldl_sub, ← hvalue]
                  exact denotes_poly hproper
          | div hqs hne =>
              obtain ⟨as, has, hden⟩ := hargs hqs
              cases hden with
              | cons hd hds =>
                  cases has with
                  | cons ha has =>
                      obtain ⟨r, hr, hproper, hvalue⟩ := normalizeArithmetic_first (.cons hd hds)
                        fun b hb p hbp hp hmem r hr => by
                          obtain ⟨d, hdmem, hdb⟩ := exists_left_of_forall₂ has hb
                          exact Polynomial.divide_spec hr hp (hnode d hdmem b p hdb hbp)
                            (hne _ hmem)
                      refine ⟨_, map_arms (.cons ha has) Op.noConfusion Op.noConfusion hr, ?_⟩
                      rw [← foldl_div, ← hvalue]
                      exact denotes_poly hproper

/-! ## Printed polynomials -/

/-- An operator of `reduce` on values one of which is null. -/
theorem foldValues_null {step : ℚ → ℚ → Option ℚ} {vs : List (Option Value)} (h : none ∈ vs) :
    foldValues (numStep J step) vs = none := by
  have hstay : ∀ us : List (Option Value), us.foldl (numStep J step) none = none := by
    intro us
    induction us with
    | nil => rfl
    | cons u us ih => exact ih
  cases vs with
  | nil => cases h
  | cons v vs =>
      rw [foldValues]
      induction vs generalizing v with
      | nil => exact (List.mem_singleton.mp h).symm
      | cons w vs ih =>
          rw [List.foldl_cons]
          cases v with
          | none => exact hstay vs
          | some v =>
              cases w with
              | none => exact hstay vs
              | some w =>
                  apply ih
                  have htail : none ∈ vs := by simpa using h
                  exact List.mem_cons_of_mem _ htail

/-- `["/", 1, k]`. -/
theorem evaluates_inverse (hobj : Reads ρ obj) (p : JsString) :
    Evaluates J obj now (.app .div [.lit (some (.num 1)), .ofParam p])
      (if ρ p = 0 then none else some (.num (ρ p)⁻¹)) := by
  have hp := @Arithmetic.evaluates J ρ obj now hobj _ _ (.param p)
  refine .app (.cons (.lit _) (.cons hp .nil)) ?_
  show Except.ok (reduce .div _ _) = _
  rw [(folds_div J).reduce_lits .div (List.cons_ne_nil _ _)]
  show Except.ok (Expr.lit (Option.map Value.num (if ρ p = 0 then none else some (1 / ρ p)))) = _
  split_ifs
  · rfl
  · rw [one_div]
    rfl

/-- The factors of a power whose key is not zero if it is inverted. -/
theorem powerFactors_evaluates (hobj : Reads ρ obj) {kw : Expr × ℤ}
    (h : Indeterminates.ProperPower (keyValue ρ) kw) :
    ∃ qs, List.Forall₂ (fun e q => Evaluates J obj now e (some (.num q)))
        (Polynomial.powerFactors kw) qs ∧ qs.prod = keyValue ρ kw.1 ^ kw.2 := by
  obtain ⟨k, w⟩ := kw
  obtain ⟨⟨p, hk⟩, hw, hne⟩ := h
  simp only at hk hw hne
  subst hk
  rw [keyValue_ofParam] at hne ⊢
  refine ⟨List.replicate w.natAbs (if 0 < w then ρ p else (ρ p)⁻¹), ?_, ?_⟩
  · unfold Polynomial.powerFactors
    rw [List.forall₂_iff_get]
    refine ⟨by simp, fun i hi hi' => ?_⟩
    simp only [List.get_eq_getElem, List.getElem_replicate]
    split_ifs with hpos
    · exact (Arithmetic.param p).evaluates hobj
    · have hinv := @evaluates_inverse J ρ obj now hobj p
      rw [if_neg (hne (by omega))] at hinv
      exact hinv
  · rw [List.prod_replicate]
    split_ifs with hpos
    · rw [← zpow_natCast, Int.natCast_natAbs, abs_of_pos hpos]
    · rw [← zpow_natCast, Int.natCast_natAbs, abs_of_neg (by omega), zpow_neg, inv_zpow, inv_inv]

theorem factors_evaluate (hobj : Reads ρ obj) {a : Indeterminates}
    (h : ∀ kw ∈ a, Indeterminates.ProperPower (keyValue ρ) kw) :
    ∃ qs, List.Forall₂ (fun e q => Evaluates J obj now e (some (.num q)))
        (a.flatMap Polynomial.powerFactors) qs ∧ qs.prod = a.value (keyValue ρ) := by
  induction a with
  | nil => exact ⟨[], .nil, rfl⟩
  | cons kw a ih =>
      obtain ⟨qs, hqs, hprod⟩ := powerFactors_evaluates hobj (h kw List.mem_cons_self)
      obtain ⟨qs', hqs', hprod'⟩ := ih fun kw hkw => h kw (List.mem_cons_of_mem _ hkw)
      refine ⟨qs ++ qs', List.rel_append hqs hqs', ?_⟩
      rw [List.prod_append, hprod, hprod', Indeterminates.value_cons]

/-- `["*", ...]`, or the factor itself if there is only one. -/
def productOf : List Expr → Expr
  | [e] => e
  | es => .app .mul es

theorem productOf_evaluates {es : List Expr} {qs : List ℚ} (hne : es ≠ [])
    (h : List.Forall₂ (fun e q => Evaluates J obj now e (some (.num q))) es qs) :
    Evaluates J obj now (productOf es) (some (.num qs.prod)) := by
  match es, h with
  | [], _ => exact absurd rfl hne
  | [e], .cons he .nil =>
      rw [List.prod_singleton]
      exact he
  | e :: e' :: es, h =>
      cases h with
      | cons he hes =>
          rw [List.prod_cons, ← foldl_mul]
          exact .reduceNumbers (folds_mul J) (fun _ => rfl) (.cons he hes) fun _ _ _ => rfl

/-- The coefficient as a factor, unless it is 1. -/
def coefficientFactor (c : ℚ) : List Expr := if c ≠ 1 then [.lit (some (.num c))] else []

theorem termExpression_eq {t : Term} (hd : t.coefficientDenominator ≠ 0)
    (hi : t.indeterminates ≠ []) : Polynomial.termExpression t
      = .ok (productOf (t.indeterminates.flatMap Polynomial.powerFactors
        ++ coefficientFactor (t.coefficientNumerator / t.coefficientDenominator))) := by
  have hmatch : ∀ es : List Expr, (match es with
      | [e] => pure e
      | es => pure (.app .mul es) : Except JsError Expr) = .ok (productOf es) := by
    intro es
    match es with
    | [] => rfl
    | [e] => rfl
    | e :: e' :: es => rfl
  rw [Polynomial.termExpression, if_neg hd]
  cases ht : t.indeterminates with
  | nil => exact absurd ht hi
  | cons kw a =>
      simp only
      unfold coefficientFactor
      split_ifs with hc
      · exact hmatch _
      · rw [List.append_nil]
        exact hmatch _

theorem powerFactors_ne_nil {kw : Expr × ℤ} (h : kw.2 ≠ 0) : Polynomial.powerFactors kw ≠ [] := by
  intro hnil
  have hlen := congrArg List.length hnil
  rw [Polynomial.powerFactors, List.length_replicate] at hlen
  exact h (Int.natAbs_eq_zero.mp hlen)

theorem termExpression_evaluates (hobj : Reads ρ obj) {t : Term} (ht : t.Proper J (keyValue ρ)) :
    ∃ e, Polynomial.termExpression t = .ok e
      ∧ Evaluates J obj now e (some (.num (t.value (keyValue ρ)))) := by
  cases hi : t.indeterminates with
  | nil =>
      refine ⟨.lit (some (.num (t.coefficientNumerator / t.coefficientDenominator))), ?_, ?_⟩
      · rw [Polynomial.termExpression, if_neg ht.denominator, hi]
        rfl
      · have hvalue : t.value (keyValue ρ) = t.coefficientNumerator / t.coefficientDenominator := by
          rw [Term.value, hi]
          exact mul_one _
        rw [hvalue]
        exact .lit _
  | cons kw a =>
      have hne : t.indeterminates ≠ [] := by
        rw [hi]
        exact List.cons_ne_nil _ _
      refine ⟨_, termExpression_eq ht.denominator hne, ?_⟩
      obtain ⟨qs, hqs, hprod⟩ :=
        @factors_evaluate J ρ obj now hobj t.indeterminates ht.indeterminates.power
      have hfactors : t.indeterminates.flatMap Polynomial.powerFactors ≠ [] := by
        rw [hi, List.flatMap_cons]
        have hexp := ht.indeterminates.exponents kw (by rw [hi]; exact List.mem_cons_self)
        exact List.append_ne_nil_of_left_ne_nil (powerFactors_ne_nil hexp) _
      unfold coefficientFactor
      split_ifs with hc
      · have hall := productOf_evaluates (List.append_ne_nil_of_left_ne_nil hfactors _)
          (List.rel_append hqs (.cons (.lit (some (.num
            (t.coefficientNumerator / t.coefficientDenominator)))) .nil))
        rw [List.prod_append, List.prod_singleton, hprod, mul_comm] at hall
        exact hall
      · have hone : (t.coefficientNumerator / t.coefficientDenominator : ℚ) = 1 := not_not.mp hc
        have hall := productOf_evaluates hfactors hqs
        rw [List.append_nil, Term.value, hone, one_mul, ← hprod]
        exact hall

/-- `["+", ...]`, the summand itself, or 0. -/
theorem toExpression_evaluates (hobj : Reads ρ obj) {p : Polynomial}
    (hp : p.Proper J (keyValue ρ)) : ∃ e, p.toExpression = .ok e
      ∧ Evaluates J obj now e (some (.num (p.value (keyValue ρ)))) := by
  obtain ⟨es, hes, hall⟩ := mapM_ok fun t ht =>
    @termExpression_evaluates J ρ obj now hobj t (hp t ht)
  have hvalues : List.Forall₂ (fun e q => Evaluates J obj now e (some (.num q))) es
      (p.map (Term.value (keyValue ρ))) := by
    rw [List.forall₂_map_right_iff]
    exact hall.flip
  rw [Polynomial.toExpression, hes, Polynomial.value]
  generalize p.map (Term.value (keyValue ρ)) = qs at hvalues
  cases hvalues with
  | nil => exact ⟨_, rfl, .lit _⟩
  | @cons e q es qs he hrest =>
      cases es with
      | nil =>
          cases hrest
          refine ⟨e, rfl, ?_⟩
          rw [List.sum_singleton]
          exact he
      | cons e' es =>
          refine ⟨_, rfl, ?_⟩
          rw [List.sum_cons, ← foldl_add]
          exact .reduceNumbers (folds_add J) (fun _ => rfl) (.cons he hrest) fun _ _ _ => rfl

end GenieAcs
