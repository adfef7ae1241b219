import GenieAcs.ExpressionTruth

/-!
# Expressions with a value at every node

`Evaluates` is evaluation that gives every part of an expression a value. It
is what an expression and the residual of its partial evaluation are compared
by, so it comes with one fact for each operator that is evaluated piecemeal:
the operators of `reduce` on numbers and strings, AND and OR.
-/

namespace GenieAcs

/-! ## Walking all nodes -/

theorem Expr.induction {P : Expr → Prop} (lit : ∀ v, P (.lit v))
    (app : ∀ op args, (∀ e ∈ args, P e) → P (.app op args)) (e : Expr) : P e :=
  @Expr.rec P (fun es => ∀ e ∈ es, P e) lit app (fun _ h => nomatch h)
    (fun _ _ he hes _ hf => by
      rcases List.mem_cons.mp hf with rfl | hf
      · exact he
      · exact hes _ hf) e

/-- It holds of the expression and of everything in it. -/
inductive Throughout (P : Expr → Prop) : Expr → Prop where
  | lit {v : Option Value} : P (.lit v) → Throughout P (.lit v)
  | app {op : Op} {args : List Expr} : P (.app op args) → (∀ e ∈ args, Throughout P e) →
      Throughout P (.app op args)

theorem Throughout.self {P : Expr → Prop} {e : Expr} (h : Throughout P e) : P e := by
  cases h with
  | lit h => exact h
  | app h _ => exact h

theorem forall₂_imp_mem {α β : Type} {R S : α → β → Prop} {as : List α} {bs : List β}
    (h : List.Forall₂ R as bs) (himp : ∀ a ∈ as, ∀ b, R a b → S a b) : List.Forall₂ S as bs := by
  have hboth : List.Forall₂ (fun a b => (∀ b, R a b → S a b) ∧ R a b) as bs :=
    (List.forall₂_and_left _ _).mpr ⟨himp, h⟩
  exact hboth.imp fun _ b hab => hab.1 b hab.2

/-- The elements between two lists that are related through them. -/
theorem forall₂_between {α β γ : Type} {R : α → β → Prop} {S : β → γ → Prop} {as : List α}
    {cs : List γ} (h : List.Forall₂ (fun a c => ∃ b, R a b ∧ S b c) as cs) :
    ∃ bs, List.Forall₂ R as bs ∧ List.Forall₂ S bs cs := by
  induction h with
  | nil => exact ⟨[], .nil, .nil⟩
  | cons hac _ ih =>
      obtain ⟨b, hab, hbc⟩ := hac
      obtain ⟨bs, habs, hbcs⟩ := ih
      exact ⟨b :: bs, .cons hab habs, .cons hbc hbcs⟩

theorem exists_of_forall₂ {α β : Type} {R : α → β → Prop} {as : List α} {bs : List β}
    (h : List.Forall₂ R as bs) {a : α} (ha : a ∈ as) : ∃ b, R a b := by
  induction h with
  | nil => cases ha
  | cons hab _ ih =>
      rcases List.mem_cons.mp ha with rfl | ha
      · exact ⟨_, hab⟩
      · exact ih ha

/-- Evaluation in which everything in the expression has a value. -/
inductive Evaluates (J : Js) (obj : Lookup) (now : Option ℚ) : Expr → Option Value → Prop where
  | lit (v : Option Value) : Evaluates J obj now (.lit v) v
  | app {op : Op} {args : List Expr} {vs : List (Option Value)} {v : Option Value} :
      List.Forall₂ (Evaluates J obj now) args vs →
      evaluateNode J (some obj) now (.app op (vs.map .lit)) = .ok (.lit v) →
      Evaluates J obj now (.app op args) v

namespace Evaluates

variable {J : Js} {obj : Lookup} {now : Option ℚ}

theorem evaluate_eq {e : Expr} {v : Option Value} (h : Evaluates J obj now e v) :
    evaluate J e (some obj) now id = .ok (.lit v) := by
  induction e using Expr.induction generalizing v with
  | lit w =>
      cases h with
      | lit => rfl
  | app op args ih =>
      cases h with
      | app hargs hv =>
          rw [evaluate_app, hv]
          exact List.forall₂_iff_get.mpr ⟨hargs.length_eq, fun i hi hi' =>
            ih _ (List.get_mem _ _) ((List.forall₂_iff_get.mp hargs).2 i hi hi')⟩

theorem lit_iff {v w : Option Value} : Evaluates J obj now (.lit v) w ↔ w = v := by
  constructor
  · intro h
    cases h with
    | lit => rfl
  · rintro rfl
    exact .lit _

theorem unique {e : Expr} {v w : Option Value} (hv : Evaluates J obj now e v)
    (hw : Evaluates J obj now e w) : v = w := by
  have h := hv.evaluate_eq.symm.trans hw.evaluate_eq
  simpa using h

/-- Argument `i` has a value; beyond the last one it is null. -/
theorem arg_value {args : List Expr} {vs : List (Option Value)}
    (h : List.Forall₂ (Evaluates J obj now) args vs) (i : Nat) :
    ∃ v, Evaluates J obj now (arg args i) v ∧ arg (vs.map .lit) i = .lit v := by
  induction h generalizing i with
  | nil => exact ⟨none, .lit none, rfl⟩
  | cons he _ ih =>
      cases i with
      | zero => exact ⟨_, he, rfl⟩
      | succ i => exact ih i

end Evaluates

/-! ## `reduce`

`reduce` folds its operands from the left, except that neighbours further
right may be merged before. `step` is the fold; a merge further right is
allowed if it stands for two steps. -/

/-- What merging the callback does, on values. -/
structure Folds (f : Value → Value → Nat → Option Expr)
    (step : Option Value → Option Value → Option Value) : Prop where
  first : ∀ a b, reduceWith f (.lit a) (.lit b) 0 = some (.lit (step a b))
  later : ∀ i a b r, reduceWith f (.lit a) (.lit b) (i + 1) = some r →
    ∃ c, r = .lit c ∧ ∀ x, step (step x a) b = step x c

/-- The value of the operands of `reduce`. -/
def foldValues (step : Option Value → Option Value → Option Value) :
    List (Option Value) → Option Value
  | [] => none
  | v :: vs => vs.foldl step v

namespace Folds

variable {f : Value → Value → Nat → Option Expr}
  {step : Option Value → Option Value → Option Value} {R : Expr → Option Value → Prop}

/-- An operand that is no literal is only merged with null, which it would be
merged with as a literal. -/
theorem reduceWith_values (hlit : ∀ {v w}, R (.lit v) w → w = v) {a b r : Expr} {i : Nat}
    {v w : Option Value} (ha : R a v) (hb : R b w) (h : reduceWith f a b i = some r) :
    reduceWith f (.lit v) (.lit w) i = some r := by
  cases a with
  | lit a =>
      obtain rfl := hlit ha
      cases b with
      | lit b =>
          obtain rfl := hlit hb
          exact h
      | app op bs =>
          cases v with
          | none => exact h
          | some v => cases h
  | app op as =>
      cases b with
      | lit b =>
          obtain rfl := hlit hb
          cases w with
          | none =>
              cases v with
              | none => exact h
              | some v => exact h
          | some w => cases h
      | app op bs => cases h

/-- A pass from the second operand on leaves what folding into any value gives. -/
theorem reducePass_later (hf : Folds f step) (hlit : ∀ {v w}, R (.lit v) w → w = v)
    (hval : ∀ v, R (.lit v) v) {i : Nat} (hi : 0 < i) {es : List Expr} {vs : List (Option Value)}
    (h : List.Forall₂ R es vs) :
    ∃ vs', List.Forall₂ R (reducePass (reduceWith f) i es).2 vs'
      ∧ ∀ x, vs'.foldl step x = vs.foldl step x := by
  induction i, es using reducePass.induct (reduceWith f) generalizing vs with
  | case1 i a b rest r hr _ _ _ ih =>
      cases h with
      | cons ha h =>
          cases h with
          | cons hb hrest =>
              obtain ⟨vs', hvs', hfold⟩ := ih (by omega) hrest
              obtain ⟨j, rfl⟩ : ∃ j, i = j + 1 := ⟨i - 1, by omega⟩
              obtain ⟨c, rfl, hc⟩ := hf.later j _ _ _ (reduceWith_values hlit ha hb hr)
              rw [reducePass, hr]
              exact ⟨c :: vs', .cons (hval c) hvs', fun x => by
                rw [List.foldl_cons, List.foldl_cons, List.foldl_cons, hfold, hc]⟩
  | case2 i a b rest hr _ _ _ ih =>
      cases h with
      | cons ha h =>
          obtain ⟨vs', hvs', hfold⟩ := ih (by omega) h
          rw [reducePass, hr]
          exact ⟨_ :: vs', .cons ha hvs', fun x => by
            rw [List.foldl_cons, List.foldl_cons, hfold]⟩
  | case3 i args hargs =>
      rw [reducePass]
      · exact ⟨vs, h, fun _ => rfl⟩
      · exact hargs

/-- A pass leaves the value of the operands. -/
theorem reducePass_values (hf : Folds f step) (hlit : ∀ {v w}, R (.lit v) w → w = v)
    (hval : ∀ v, R (.lit v) v) {es : List Expr} {vs : List (Option Value)}
    (h : List.Forall₂ R es vs) (hne : es ≠ []) :
    ∃ vs', List.Forall₂ R (reducePass (reduceWith f) 0 es).2 vs'
      ∧ (reducePass (reduceWith f) 0 es).2 ≠ [] ∧ foldValues step vs' = foldValues step vs := by
  cases h with
  | nil => exact absurd rfl hne
  | @cons a v as vs ha hrest =>
      cases hrest with
      | nil => exact ⟨[v], .cons ha .nil, List.cons_ne_nil _ _, rfl⟩
      | @cons b w bs ws hb hrest =>
          unfold reducePass
          cases hr : reduceWith f a b 0 with
          | some r =>
              obtain ⟨vs', hvs', hfold⟩ := hf.reducePass_later hlit hval Nat.one_pos hrest
              have hstep := reduceWith_values hlit ha hb hr
              rw [hf.first] at hstep
              obtain rfl := Option.some.inj hstep
              exact ⟨step v w :: vs', .cons (hval _) hvs', List.cons_ne_nil _ _, hfold _⟩
          | none =>
              obtain ⟨vs', hvs', hfold⟩ := hf.reducePass_later hlit hval Nat.one_pos (.cons hb hrest)
              exact ⟨v :: vs', .cons ha hvs', List.cons_ne_nil _ _, hfold _⟩

theorem reduceLoop_values (hf : Folds f step) (hlit : ∀ {v w}, R (.lit v) w → w = v)
    (hval : ∀ v, R (.lit v) v) (fuel : Nat) {es : List Expr} {vs : List (Option Value)}
    (h : List.Forall₂ R es vs) (hne : es ≠ []) :
    ∃ vs', List.Forall₂ R (reduceLoop (reduceWith f) fuel es) vs'
      ∧ reduceLoop (reduceWith f) fuel es ≠ [] ∧ foldValues step vs' = foldValues step vs := by
  induction fuel generalizing es vs with
  | zero => exact ⟨vs, h, hne, rfl⟩
  | succ fuel ih =>
      obtain ⟨vs₁, h₁, hne₁, hfold₁⟩ := hf.reducePass_values hlit hval h hne
      unfold reduceLoop
      generalize hpass : reducePass (reduceWith f) 0 es = p at h₁ hne₁
      obtain ⟨changed, es₁⟩ := p
      cases changed with
      | false => exact ⟨vs₁, h₁, hne₁, hfold₁⟩
      | true =>
          obtain ⟨vs₂, h₂, hne₂, hfold₂⟩ := ih h₁ hne₁
          exact ⟨vs₂, h₂, hne₂, hfold₂.trans hfold₁⟩

theorem reducePass_length_le (callback : Expr → Expr → Nat → Option Expr) (i : Nat)
    (es : List Expr) : (reducePass callback i es).2.length ≤ es.length := by
  induction i, es using reducePass.induct callback with
  | case1 i a b rest r hr _ _ hpass ih =>
      rw [reducePass, hr]
      show (reducePass callback (i + 1) rest).2.length + 1 ≤ rest.length + 1 + 1
      omega
  | case2 i a b rest hr _ _ hpass ih =>
      rw [reducePass, hr]
      exact Nat.succ_le_succ ih
  | case3 i args hargs =>
      rw [reducePass]
      · exact hargs

/-- Literals are folded to one; every pass merges the first two. -/
theorem reduceLoop_lits (hf : Folds f step) (fuel : Nat) {es : List Expr}
    {vs : List (Option Value)} (h : List.Forall₂ (fun e v => e = .lit v) es vs) (hne : es ≠ [])
    (hfuel : es.length ≤ fuel) : (reduceLoop (reduceWith f) fuel es).length = 1 := by
  induction fuel generalizing es vs with
  | zero =>
      have := List.length_pos_of_ne_nil hne
      omega
  | succ fuel ih =>
      obtain ⟨vs₁, h₁, hne₁, -⟩ :=
        hf.reducePass_values (fun h => (Expr.lit.inj h).symm) (fun _ => rfl) h hne
      unfold reduceLoop
      cases h with
      | nil => exact absurd rfl hne
      | @cons a v as vs ha hrest =>
          cases hrest with
          | nil => rfl
          | @cons b w bs ws hb hrest =>
              subst ha hb
              have hstep := hf.first v w
              have hle := reducePass_length_le (reduceWith f) 1 bs
              unfold reducePass at h₁ hne₁ ⊢
              rw [hstep] at h₁ hne₁ ⊢
              refine ih h₁ hne₁ ?_
              show (reducePass (reduceWith f) 1 bs).2.length + 1 ≤ fuel
              simp only [List.length_cons] at hfuel
              omega

theorem reduce_lits (hf : Folds f step) (op : Op) {vs : List (Option Value)} (hne : vs ≠ []) :
    reduce op (reduceWith f) (vs.map .lit) = .lit (foldValues step vs) := by
  have h : List.Forall₂ (fun e v => e = Expr.lit v) (vs.map Expr.lit) vs := by
    rw [List.forall₂_map_left_iff]
    exact List.forall₂_same.mpr fun _ _ => rfl
  have hne' : vs.map Expr.lit ≠ [] := by simpa using hne
  obtain ⟨vs', h', -, hfold⟩ := hf.reduceLoop_values (fun h => (Expr.lit.inj h).symm)
    (fun _ => rfl) ((vs.map Expr.lit).length + 1) h hne'
  have hlen := hf.reduceLoop_lits ((vs.map Expr.lit).length + 1) h hne' (by omega)
  unfold reduce
  generalize reduceLoop (reduceWith f) ((vs.map Expr.lit).length + 1) (vs.map .lit) = es at h' hlen
  obtain ⟨e, rfl⟩ := List.length_eq_one_iff.mp hlen
  cases h' with
  | cons he hnil =>
      cases hnil with
      | nil =>
          show e = _
          rw [he, ← hfold]
          rfl

/-- What is left of an operator on operands some of which have no value yet
has the value of the operator on all values. -/
theorem reduce_residual (hf : Folds f step) {J : Js} {obj : Lookup} {now : Option ℚ} {op : Op}
    (hop : ∀ args, evaluateNode J (some obj) now (.app op args) = .ok (reduce op (reduceWith f) args))
    {ss : List Expr} {vs : List (Option Value)} {v : Option Value}
    (h : List.Forall₂ (Evaluates J obj now) ss vs)
    (hv : reduce op (reduceWith f) (vs.map .lit) = .lit v) :
    Evaluates J obj now (reduce op (reduceWith f) ss) v := by
  have hne : ss ≠ [] := by
    rintro rfl
    cases h
    cases hv
  have hvs : vs ≠ [] := by
    rintro rfl
    cases h
    exact hne rfl
  rw [hf.reduce_lits op hvs] at hv
  obtain ⟨vs', h', hne', hfold⟩ :=
    hf.reduceLoop_values Evaluates.lit_iff.mp Evaluates.lit (ss.length + 1) h hne
  have happ : Evaluates J obj now (.app op (reduceLoop (reduceWith f) (ss.length + 1) ss)) v := by
    refine .app h' ?_
    have hvs' : vs' ≠ [] := by
      rintro rfl
      exact hne' (List.forall₂_nil_right_iff.mp h')
    rw [hop, hf.reduce_lits op hvs', hfold, hv]
  unfold reduce
  generalize reduceLoop (reduceWith f) (ss.length + 1) ss = es at h' happ
  split
  · rename_i e
    cases h' with
    | cons he hnil =>
        cases hnil
        rw [← Expr.lit.inj hv, ← hfold]
        exact he
  · exact happ

end Folds

namespace Folds

variable {f : Value → Value → Nat → Option Expr} {step : Option Value → Option Value → Option Value}

/-- Null takes part in every merge in the same way. -/
theorem of_values (hnull : ∀ b, step none b = none) (hnull' : ∀ a, step a none = none)
    (hfirst : ∀ a b, f a b 0 = some (.lit (step (some a) (some b))))
    (hlater : ∀ i a b r, f a b (i + 1) = some r →
      ∃ c, r = .lit c ∧ ∀ x, step (step (some x) (some a)) (some b) = step (some x) c) :
    Folds f step where
  first a b := by
    cases a with
    | none => rw [hnull]; rfl
    | some a =>
        cases b with
        | none => rw [hnull']; rfl
        | some b => exact hfirst a b
  later i a b r h := by
    cases a with
    | none =>
        cases h
        exact ⟨none, rfl, fun x => by rw [hnull', hnull]⟩
    | some a =>
        cases b with
        | none =>
            cases h
            exact ⟨none, rfl, fun x => by rw [hnull', hnull']⟩
        | some b =>
            obtain ⟨c, hr, hc⟩ := hlater i a b r h
            refine ⟨c, hr, fun x => ?_⟩
            cases x with
            | none => rw [hnull, hnull, hnull]
            | some x => exact hc x

end Folds

/-- The step of an operator on numbers. -/
def numStep (J : Js) (f : ℚ → ℚ → Option ℚ) : Option Value → Option Value → Option Value
  | some a, some b => (f (a.toNumber J) (b.toNumber J)).map .num
  | _, _ => none

@[simp]
theorem numStep_some (J : Js) (f : ℚ → ℚ → Option ℚ) (a b : Value) :
    numStep J f (some a) (some b) = (f (a.toNumber J) (b.toNumber J)).map .num := rfl

@[simp]
theorem toNumber_num (J : Js) (q : ℚ) : (Value.num q).toNumber J = q := rfl

theorem numStep_null (J : Js) (f : ℚ → ℚ → Option ℚ) (a : Option Value) :
    numStep J f a none = none := by
  cases a <;> rfl

def concatStep (J : Js) : Option Value → Option Value → Option Value
  | some a, some b => some (.str (a.toString J ++ b.toString J))
  | _, _ => none

theorem folds_mul (J : Js) :
    Folds (fun a b _ => some (.lit (some (.num (a.toNumber J * b.toNumber J)))))
      (numStep J fun a b => some (a * b)) := by
  refine .of_values (fun _ => rfl) (numStep_null J _) (fun _ _ => rfl) fun i a b r h => ?_
  cases h
  exact ⟨_, rfl, fun x => by simp [mul_assoc]⟩

theorem folds_add (J : Js) :
    Folds (fun a b _ => some (.lit (some (.num (a.toNumber J + b.toNumber J)))))
      (numStep J fun a b => some (a + b)) := by
  refine .of_values (fun _ => rfl) (numStep_null J _) (fun _ _ => rfl) fun i a b r h => ?_
  cases h
  exact ⟨_, rfl, fun x => by simp [add_assoc]⟩

/-- Further right a subtraction adds what is to be subtracted. -/
theorem folds_sub (J : Js) :
    Folds (fun a b i =>
        if i = 0 then some (.lit (some (.num (a.toNumber J - b.toNumber J))))
        else some (.lit (some (.num (a.toNumber J + b.toNumber J)))))
      (numStep J fun a b => some (a - b)) := by
  refine .of_values (fun _ => rfl) (numStep_null J _) (fun _ _ => rfl) fun i a b r h => ?_
  cases h
  exact ⟨_, rfl, fun x => by simp [sub_sub]⟩

/-- Further right a division multiplies the divisors; a divisor that is zero
still shows in the product. -/
theorem folds_div (J : Js) :
    Folds (fun a b i =>
        if i ≠ 0 then some (.lit (some (.num (a.toNumber J * b.toNumber J))))
        else if b.toNumber J = 0 then some Expr.null
        else some (.lit (some (.num (a.toNumber J / b.toNumber J)))))
      (numStep J fun a b => if b = 0 then none else some (a / b)) := by
  refine .of_values (fun _ => rfl) (numStep_null J _) (fun a b => ?_) fun i a b r h => ?_
  · by_cases hb : b.toNumber J = 0 <;> simp [hb, Expr.null]
  · cases h
    refine ⟨_, rfl, fun x => ?_⟩
    by_cases ha : a.toNumber J = 0
    · rw [numStep_some, if_pos ha, numStep_some, toNumber_num, ha, zero_mul, if_pos rfl]
      rfl
    · by_cases hb : b.toNumber J = 0
      · simp [ha, hb]
      · simp [ha, hb, div_div]

/-- Further right a remainder only passes on null. -/
theorem folds_mod (J : Js) :
    Folds (fun a b i =>
        if i ≠ 0 then none
        else if trunc (b.toNumber J) = 0 then some Expr.null
        else some (.lit (some (.num (remainder (a.toNumber J) (trunc (b.toNumber J)))))))
      (numStep J fun a b => if trunc b = 0 then none else some (remainder a (trunc b))) := by
  refine .of_values (fun _ => rfl) (numStep_null J _) (fun a b => ?_) fun i a b r h => ?_
  · by_cases hb : trunc (b.toNumber J) = 0 <;> simp [hb, Expr.null]
  · cases h

theorem folds_concat (J : Js) :
    Folds (fun a b _ => some (.lit (some (.str (a.toString J ++ b.toString J))))) (concatStep J) := by
  refine .of_values (fun _ => rfl) (fun a => by cases a <;> rfl) (fun _ _ => rfl) fun i a b r h => ?_
  cases h
  exact ⟨_, rfl, fun x => by simp [concatStep, Value.toString]⟩

/-! ## Conjunction, disjunction and negation of residuals -/

namespace Evaluates

variable {J : Js} {obj : Lookup} {now : Option ℚ} {ss : List Expr} {vs : List (Option Value)}

theorem mem_values (h : List.Forall₂ (Evaluates J obj now) ss vs) {v : Option Value}
    (hv : .lit v ∈ ss) : v ∈ vs := by
  induction h with
  | nil => cases hv
  | cons he _ ih =>
      rcases List.mem_cons.mp hv with rfl | hv
      · rw [lit_iff.mp he]
        exact List.mem_cons_self
      · exact List.mem_cons_of_mem _ (ih hv)

theorem and {as : List Expr} {us : List (Option Value)}
    (h : List.Forall₂ (Evaluates J obj now) as us) :
    Evaluates J obj now (.app .and as) (ofTruth (Kleene.all (us.map truth))) :=
  .app h (congrArg Except.ok (evaluateAnd_lits us))

theorem or {as : List Expr} {us : List (Option Value)}
    (h : List.Forall₂ (Evaluates J obj now) as us) :
    Evaluates J obj now (.app .or as) (ofTruth (Kleene.any (us.map truth))) :=
  .app h (congrArg Except.ok (evaluateOr_lits us))

/-- The arguments of a conjunction that has a value. -/
theorem and_args {as : List Expr} {v : Option Value} (h : Evaluates J obj now (.app .and as) v) :
    ∃ us, List.Forall₂ (Evaluates J obj now) as us ∧ truth v = Kleene.all (us.map truth) := by
  have hand := h
  cases h with
  | app hus _ =>
      refine ⟨_, hus, ?_⟩
      rw [unique hand (and hus), truth_ofTruth]

theorem or_args {as : List Expr} {v : Option Value} (h : Evaluates J obj now (.app .or as) v) :
    ∃ us, List.Forall₂ (Evaluates J obj now) as us ∧ truth v = Kleene.any (us.map truth) := by
  have hor := h
  cases h with
  | app hus _ =>
      refine ⟨_, hus, ?_⟩
      rw [unique hor (or hus), truth_ofTruth]

end Evaluates

theorem andArgs_eq_none {ss : List Expr} : andArgs ss = none ↔ Expr.null ∈ ss := by
  induction ss using andArgs.induct with
  | case1 => simp [andArgs]
  | case2 es => simp [andArgs, Expr.null]
  | case3 v es ih => simp [andArgs, ih, Expr.null]
  | case4 as es ih => simp [andArgs, ih, Expr.null]
  | case5 op as es hop ih => simp [andArgs, ih, Expr.null]

/-- What the second loop of AND keeps has the truth value of all arguments,
once no literal is false. -/
theorem andArgs_values {J : Js} {obj : Lookup} {now : Option ℚ} {ss args : List Expr}
    {vs : List (Option Value)} (h : List.Forall₂ (Evaluates J obj now) ss vs)
    (hfalse : ss.any Expr.isFalseLit = false) (hargs : andArgs ss = some args) :
    ∃ ws, List.Forall₂ (Evaluates J obj now) args ws
      ∧ Kleene.all (ws.map truth) = Kleene.all (vs.map truth) := by
  induction ss using andArgs.induct generalizing args vs with
  | case1 =>
      cases h
      cases hargs
      exact ⟨[], .nil, rfl⟩
  | case2 es => cases hargs
  | case3 v es ih =>
      cases h with
      | cons he hes =>
          rw [List.any_cons, Bool.or_eq_false_iff] at hfalse
          obtain ⟨ws, hws, hall⟩ := ih hes hfalse.2 hargs
          refine ⟨ws, hws, ?_⟩
          have htrue : (Expr.lit (some v)).truthy = true := by
            simpa [Expr.isFalseLit] using hfalse.1
          rw [Evaluates.lit_iff.mp he, List.map_cons, truth_some, htrue, Kleene.all_cons,
            Kleene.all_true_pair, hall]
  | case4 as es ih =>
      cases h with
      | @cons _ v _ vs he hes =>
          rw [List.any_cons, Bool.or_eq_false_iff] at hfalse
          rw [andArgs] at hargs
          obtain ⟨args', hargs', rfl⟩ := Option.map_eq_some_iff.mp hargs
          obtain ⟨ws, hws, hall⟩ := ih hes hfalse.2 hargs'
          obtain ⟨us, hus, hv⟩ := he.and_args
          refine ⟨us ++ ws, List.rel_append hus hws, ?_⟩
          rw [List.map_append, Kleene.all_append, hall, List.map_cons, Kleene.all_cons (truth v), hv]
  | case5 op as es hop ih =>
      cases h with
      | @cons _ v _ vs he hes =>
          rw [List.any_cons, Bool.or_eq_false_iff] at hfalse
          rw [andArgs] at hargs
          · obtain ⟨args', hargs', rfl⟩ := Option.map_eq_some_iff.mp hargs
            obtain ⟨ws, hws, hall⟩ := ih hes hfalse.2 hargs'
            refine ⟨v :: ws, .cons he hws, ?_⟩
            rw [List.map_cons, Kleene.all_cons, hall, ← Kleene.all_cons, List.map_cons]
          · exact hop

/-- The values of the operands that the first stage left open. -/
def unsettled (ss : List Expr) (vs : List (Option Value)) : List (Option Value) :=
  ((ss.zip vs).filter (·.1.isArray)).map (·.2)

theorem Kleene.any_pair_assoc (t u n : Option Bool) :
    Kleene.any [t, Kleene.any [u, n]] = Kleene.any [Kleene.any [t, u], n] := by
  rcases t with _ | _ | _ <;> rcases u with _ | _ | _ <;> rcases n with _ | _ | _ <;> rfl

/-- What the loop of OR keeps has the truth value of the open arguments. -/
theorem orArgs_values {J : Js} {obj : Lookup} {now : Option ℚ} {ss args : List Expr}
    {vs : List (Option Value)} (h : List.Forall₂ (Evaluates J obj now) ss vs)
    (hargs : orArgs ss = some args) :
    ∃ ws, List.Forall₂ (Evaluates J obj now) args ws
      ∧ Kleene.any (ws.map truth) = Kleene.any ((unsettled ss vs).map truth) := by
  induction ss using orArgs.induct generalizing args vs with
  | case1 =>
      cases h
      cases hargs
      exact ⟨[], .nil, rfl⟩
  | case2 as es ih =>
      cases h with
      | @cons _ v _ vs he hes =>
          rw [orArgs] at hargs
          obtain ⟨args', hargs', rfl⟩ := Option.map_eq_some_iff.mp hargs
          obtain ⟨ws, hws, hany⟩ := ih hes hargs'
          obtain ⟨us, hus, hv⟩ := he.or_args
          refine ⟨us ++ ws, List.rel_append hus hws, ?_⟩
          show _ = Kleene.any (truth v :: (unsettled es vs).map truth)
          rw [List.map_append, Kleene.any_append, hany, Kleene.any_cons (truth v), hv]
  | case3 op as es hop ih =>
      cases h with
      | @cons _ v _ vs he hes =>
          rw [orArgs] at hargs
          · obtain ⟨args', hargs', rfl⟩ := Option.map_eq_some_iff.mp hargs
            obtain ⟨ws, hws, hany⟩ := ih hes hargs'
            refine ⟨v :: ws, .cons he hws, ?_⟩
            show _ = Kleene.any (truth v :: (unsettled es vs).map truth)
            rw [List.map_cons, Kleene.any_cons, hany, ← Kleene.any_cons]
          · exact hop
  | case4 v es hv =>
      rw [orArgs, if_pos hv] at hargs
      cases hargs
  | case5 v es hv ih =>
      cases h with
      | cons he hes =>
          rw [orArgs, if_neg hv] at hargs
          exact ih hes hargs

theorem orArgs_eq_none {ss : List Expr} (h : orArgs ss = none) :
    ∃ v, .lit v ∈ ss ∧ truth v = some true := by
  induction ss using orArgs.induct with
  | case1 => cases h
  | case2 as es ih =>
      rw [orArgs] at h
      obtain ⟨v, hv, ht⟩ := ih (Option.map_eq_none_iff.mp h)
      exact ⟨v, List.mem_cons_of_mem _ hv, ht⟩
  | case3 op as es hop ih =>
      rw [orArgs] at h
      · obtain ⟨v, hv, ht⟩ := ih (Option.map_eq_none_iff.mp h)
        exact ⟨v, List.mem_cons_of_mem _ hv, ht⟩
      · exact hop
  | case4 v es hv =>
      refine ⟨v, List.mem_cons_self, ?_⟩
      cases v with
      | none => cases hv
      | some v => rw [truth_some, hv]
  | case5 v es hv ih =>
      rw [orArgs, if_neg hv] at h
      obtain ⟨w, hw, ht⟩ := ih h
      exact ⟨w, List.mem_cons_of_mem _ hw, ht⟩

theorem orArgs_tail {s : Expr} {ss args : List Expr} (h : orArgs (s :: ss) = some args) :
    ∃ args', orArgs ss = some args' := by
  cases s with
  | lit v =>
      rw [orArgs] at h
      split_ifs at h
      exact ⟨args, h⟩
  | app op as =>
      by_cases hop : op = .or
      · subst hop
        rw [orArgs] at h
        obtain ⟨args', hargs', -⟩ := Option.map_eq_some_iff.mp h
        exact ⟨args', hargs'⟩
      · rw [orArgs] at h
        · obtain ⟨args', hargs', -⟩ := Option.map_eq_some_iff.mp h
          exact ⟨args', hargs'⟩
        · exact hop

/-- The truth value of all arguments: a null among the literals counts on. -/
theorem any_values {J : Js} {obj : Lookup} {now : Option ℚ} {ss args : List Expr}
    {vs : List (Option Value)} (h : List.Forall₂ (Evaluates J obj now) ss vs)
    (hargs : orArgs ss = some args) :
    Kleene.any (vs.map truth) = Kleene.any [Kleene.any ((unsettled ss vs).map truth),
      if Expr.null ∈ ss then none else some false] := by
  induction h generalizing args with
  | nil => rfl
  | @cons s v ss vs he hes ih =>
      cases s with
      | app op as =>
          have hnull : Expr.null ∈ Expr.app op as :: ss ↔ Expr.null ∈ ss := by
            simp [Expr.null]
          obtain ⟨args', hargs'⟩ := orArgs_tail hargs
          show _ = Kleene.any [Kleene.any (truth v :: (unsettled ss vs).map truth), _]
          rw [List.map_cons, Kleene.any_cons, ih hargs', Kleene.any_pair_assoc,
            ← Kleene.any_cons (truth v)]
          simp only [hnull]
      | lit w =>
          obtain rfl := Evaluates.lit_iff.mp he
          rw [orArgs] at hargs
          split_ifs at hargs with hw
          show _ = Kleene.any [Kleene.any ((unsettled ss vs).map truth), _]
          rw [List.map_cons, Kleene.any_cons, ih hargs]
          cases v with
          | none =>
              have hnull : Expr.null ∈ Expr.lit none :: ss := List.mem_cons_self
              rw [if_pos hnull]
              generalize Kleene.any ((unsettled ss vs).map truth) = t
              split_ifs <;> rcases t with _ | _ | _ <;> rfl
          | some v =>
              have hnull : Expr.null ∈ Expr.lit (some v) :: ss ↔ Expr.null ∈ ss := by
                simp [Expr.null]
              rw [truth_some, Bool.eq_false_of_not_eq_true hw, Kleene.any_false_pair]
              simp only [hnull]

/-! ## Operators that wait for their operands -/

section Waiting

variable {J : Js} {obj : Lookup} {now : Option ℚ} {ss : List Expr} {vs : List (Option Value)}

/-- An argument that is settled has the value it has in the end. -/
theorem arg_settled (h : List.Forall₂ (Evaluates J obj now) ss vs) (i : Nat) :
    ∃ a, arg (vs.map .lit) i = .lit a ∧ ∀ b, arg ss i = .lit b → b = a := by
  obtain ⟨a, ha, harg⟩ := Evaluates.arg_value h i
  refine ⟨a, harg, fun b hb => ?_⟩
  rw [hb] at ha
  exact (Evaluates.lit_iff.mp ha).symm

/-- Null if one operand is null, `f` of both if both are settled, else `exp`. -/
def strictPair (exp : Expr) (f : Value → Value → Expr) (a b : Expr) : Expr :=
  match a, b with
  | .lit none, _ => Expr.null
  | _, .lit none => Expr.null
  | .lit (some v), .lit (some w) => f v w
  | _, _ => exp

theorem strictPair_residual (exp exp' : Expr) (f : Value → Value → Expr) {x y : Expr}
    {a b : Option Value} (hx : ∀ a', x = .lit a' → a' = a) (hy : ∀ b', y = .lit b' → b' = b) :
    strictPair exp f x y = exp ∨ strictPair exp f x y = strictPair exp' f (.lit a) (.lit b) := by
  cases x with
  | lit a' =>
      obtain rfl := hx a' rfl
      cases a' with
      | none =>
          right
          rfl
      | some a' =>
          cases y with
          | lit b' =>
              obtain rfl := hy b' rfl
              right
              cases b' <;> rfl
          | app op' bs =>
              left
              rfl
  | app op' as =>
      cases y with
      | lit b' =>
          obtain rfl := hy b' rfl
          cases b' with
          | none =>
              right
              cases a <;> rfl
          | some b' =>
              left
              rfl
      | app op'' bs =>
          left
          rfl

theorem evaluateCompare_residual (op : Op)
    (h : List.Forall₂ (Evaluates J obj now) ss vs) :
    evaluateCompare op ss = .app op ss ∨ evaluateCompare op ss = evaluateCompare op (vs.map .lit) := by
  have hpair : ∀ args, evaluateCompare op args = strictPair (.app op args)
      (fun v w => Expr.ofBool (op.holds (v.compare w))) (arg args 0) (arg args 1) := fun _ => rfl
  obtain ⟨a, ha, hsa⟩ := arg_settled h 0
  obtain ⟨b, hb, hsb⟩ := arg_settled h 1
  rw [hpair, hpair (vs.map .lit), ha, hb]
  exact strictPair_residual _ _ _ hsa hsb

theorem isNullTest_residual (onNull : Bool) (op : Op)
    (h : List.Forall₂ (Evaluates J obj now) ss vs) :
    isNullTest onNull op ss = .app op ss
      ∨ isNullTest onNull op ss = isNullTest onNull op (vs.map .lit) := by
  obtain ⟨a, ha, hsa⟩ := arg_settled h 0
  rw [isNullTest, isNullTest, ha]
  cases h0 : arg ss 0 with
  | lit a' =>
      obtain rfl := hsa a' h0
      right
      cases a' <;> rfl
  | app op' as =>
      left
      rfl

theorem evaluateLike_residual (op : Op) (negate : Bool)
    (h : List.Forall₂ (Evaluates J obj now) ss vs) :
    evaluateLike J op negate ss = .ok (.app op ss)
      ∨ evaluateLike J op negate ss = evaluateLike J op negate (vs.map .lit) := by
  obtain ⟨a, ha, hsa⟩ := arg_settled h 0
  obtain ⟨b, hb, hsb⟩ := arg_settled h 1
  obtain ⟨c, hc, hsc⟩ := arg_settled h 2
  rw [evaluateLike, evaluateLike, ha, hb, hc, List.length_map, h.length_eq]
  cases h0 : arg ss 0 with
  | app op' as =>
      left
      rfl
  | lit a' =>
      cases h1 : arg ss 1 with
      | app op' as =>
          left
          rfl
      | lit b' =>
          cases h2 : arg ss 2 with
          | app op' as =>
              left
              rfl
          | lit c' =>
              right
              rw [hsa a' h0, hsb b' h1, hsc c' h2]

end Waiting

end GenieAcs
