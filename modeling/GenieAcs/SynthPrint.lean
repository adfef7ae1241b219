import GenieAcs.SynthSanitize

/-!
# Printed minterms

`toExpression` prints a cover as an OR of ANDs. A literal that says "true" or
"false" is printed as the expression of its clause or its negation; one that
says "not true" or "not false" as an OR with the null test, itself printed by
`toExpression`. On every row the printed expression is true exactly where the
cover holds; where the cover fails it may be false or null.
-/

namespace GenieAcs

open Cover

section

variable {J : Js} {obj : Lookup} {now : Option ℚ}

/-! ## Expressions of leaves -/

theorem Leaf.key_means (l : Leaf) : Means J obj now l.key (l.truth obj) := by
  cases l with
  | param p => exact Means.param p
  | reversed op s p =>
      exact Means.compare op.isCompare (evaluate_lit _) (Means.evaluate_param p)
  | compare p op v =>
      exact Means.compare op.isCompare (Means.evaluate_param p) (evaluate_lit _)
  | isNull p => exact Means.isNull (Means.evaluate_param p)

/-- The operator of the negated comparison. -/
def CompareOp.negated : CompareOp → Op
  | .gt => .le
  | .lt => .ge
  | .eq => .ne

theorem CompareOp.negated_isCompare (op : CompareOp) : op.negated.IsCompare := by
  cases op <;> constructor

theorem CompareOp.negated_truth (op : CompareOp) (v w : Option Value) :
    compareTruth op.negated v w = Kleene.neg (compareTruth op.toOp v w) := by
  cases v with
  | none => rfl
  | some v =>
      cases w with
      | none => rfl
      | some w => cases op <;> rfl

theorem CompareOp.simplifyNot (op : CompareOp) (args : List Expr) :
    Methods.simplifyNot (.app .not [.app op.toOp args]) = .app op.negated args := by
  cases op <;> rfl

theorem Leaf.negated_means (l : Leaf) :
    Means J obj now (Methods.simplifyNot (.app .not [l.key])) (Kleene.neg (l.truth obj)) := by
  cases l with
  | param p => exact Means.not (Means.param p)
  | reversed op s p =>
      rw [Leaf.key, CompareOp.simplifyNot, Leaf.truth, ← CompareOp.negated_truth]
      exact Means.compare op.negated_isCompare (evaluate_lit _) (Means.evaluate_param p)
  | compare p op v =>
      rw [Leaf.key, CompareOp.simplifyNot, Leaf.truth, ← CompareOp.negated_truth]
      exact Means.compare op.negated_isCompare (Means.evaluate_param p) (evaluate_lit _)
  | isNull p =>
      have h := @Means.isNotNull J obj now _ _ (Means.evaluate_param p)
      simpa [Leaf.key, Methods.simplifyNot, Leaf.truth, Kleene.neg] using h

/-! ## Joined expressions -/

theorem joinWith_and {es : List Expr} {ts : List (Option Bool)}
    (h : List.Forall₂ (Means J obj now) es ts) :
    Means J obj now (Methods.joinWith .and es) (Kleene.all ts) := by
  match es, ts, h with
  | [_], [t], .cons ht .nil => exact (Kleene.all_singleton t).symm ▸ ht
  | [], _, h => exact Means.and h
  | _ :: _ :: _, _, h => exact Means.and h

theorem joinWith_or {es : List Expr} {ts : List (Option Bool)}
    (h : List.Forall₂ (Means J obj now) es ts) :
    Means J obj now (Methods.joinWith .or es) (Kleene.any ts) := by
  match es, ts, h with
  | [_], [t], .cons ht .nil => exact (Kleene.any_singleton t).symm ▸ ht
  | [], _, h => exact Means.or h
  | _ :: _ :: _, _, h => exact Means.or h

/-- The expression evaluates, and to a truthy value exactly if `P` holds. -/
def TrueIff (J : Js) (obj : Lookup) (now : Option ℚ) (e : Expr) (P : Prop) : Prop :=
  ∃ t, Means J obj now e t ∧ (t = some true ↔ P)

theorem exists_truths {α : Type} {R : α → Prop} {as : List α} {es : List Expr}
    (h : List.Forall₂ (fun a e => TrueIff J obj now e (R a)) as es) :
    ∃ ts, List.Forall₂ (Means J obj now) es ts
      ∧ List.Forall₂ (fun a t => t = some true ↔ R a) as ts := by
  induction h with
  | nil => exact ⟨[], List.Forall₂.nil, List.Forall₂.nil⟩
  | cons ha _ ih =>
      obtain ⟨t, ht, hiff⟩ := ha
      obtain ⟨ts, hts, hiffs⟩ := ih
      exact ⟨t :: ts, List.Forall₂.cons ht hts, List.Forall₂.cons hiff hiffs⟩

theorem TrueIff.and {α : Type} {R : α → Prop} {as : List α} {es : List Expr}
    (h : List.Forall₂ (fun a e => TrueIff J obj now e (R a)) as es) :
    TrueIff J obj now (Methods.joinWith .and es) (∀ a ∈ as, R a) := by
  obtain ⟨ts, hts, hiffs⟩ := exists_truths h
  refine ⟨_, joinWith_and hts, ?_⟩
  rw [Kleene.all_eq_true]
  clear hts h
  induction hiffs with
  | nil => simp
  | cons ha _ ih => rw [List.forall_mem_cons, List.forall_mem_cons, ha, ih]

theorem TrueIff.or {α : Type} {R : α → Prop} {as : List α} {es : List Expr}
    (h : List.Forall₂ (fun a e => TrueIff J obj now e (R a)) as es) :
    TrueIff J obj now (Methods.joinWith .or es) (∃ a ∈ as, R a) := by
  obtain ⟨ts, hts, hiffs⟩ := exists_truths h
  refine ⟨_, joinWith_or hts, ?_⟩
  rw [Kleene.any_eq_true]
  clear hts h
  induction hiffs with
  | nil => simp
  | cons ha _ ih => rw [List.mem_cons, List.exists_mem_cons_iff, ← ha, ih, eq_comm]

end

/-- On every row the expression is true exactly if the minterms hold. -/
def Prints (E : Env) (ls : List Leaf) (e : Expr) (ms : Minterms) : Prop :=
  ∀ now row ν, Agrees row ν ls → TrueIff E.J row.value now e (Sat (Holds ν) ms)

section

variable {E : Env} {ls ls' : List Leaf} {self : Methods}

theorem Prints.grow {e : Expr} {ms : Minterms} (h : Prints E ls e ms) (hpre : ls <+: ls') :
    Prints E ls' e ms :=
  fun now row ν ha => h now row ν (ha.shrink hpre)

/-- A literal is printed, whatever the context has grown to. -/
def PrintsLiteral (E : Env) (self : Methods) (ls : List Leaf) (i : Nat) : Prop :=
  ∀ ls', ls <+: ls' → Good ls' →
    Runs (self.literalExpression i) ls' fun e ls'' => Prints E ls'' e [[i]]

theorem PrintsLiteral.grow {i : Nat} (h : PrintsLiteral E self ls i) (hpre : ls <+: ls') :
    PrintsLiteral E self ls' i :=
  fun ls'' hpre' hg => h ls'' (hpre.trans hpre') hg

theorem products_spec (ms : Minterms) : ∀ ls, Good ls →
    (∀ m ∈ ms, ∀ i ∈ m, PrintsLiteral E self ls i) →
    Runs (self.products ms) ls fun r ls' => match r with
      | none => [] ∈ ms
      | some es => List.Forall₂ (fun m e => Prints E ls' e [m]) ms es := by
  induction ms with
  | nil =>
      intro ls hg _
      exact Runs.pure hg List.Forall₂.nil
  | cons m ms ih =>
      intro ls hg h
      obtain ⟨hm, hms⟩ := List.forall_mem_cons.mp h
      cases m with
      | nil => exact Runs.pure hg (List.mem_cons_self ..)
      | cons i m =>
          unfold Methods.products
          have hall : Runs ((i :: m).mapM self.literalExpression) ls fun es ls' =>
              List.Forall₂ (fun i e => Prints E ls' e [[i]]) (i :: m) es :=
            @Runs.mapM _ _ _ (fun i e ls => Prints E ls e [[i]])
              (fun _ _ _ _ h hpre => h.grow hpre) _ _ hg fun i hi ls' hpre hg' => hm i hi ls' hpre hg'
          refine Runs.bind hall fun conjs ls₁ h₁ hg₁ hconjs => ?_
          refine Runs.bind (ih ls₁ hg₁ fun m hm i hi => (hms m hm i hi).grow h₁)
            fun rest ls₂ h₂ hg₂ hrest => ?_
          refine Runs.pure hg₂ ?_
          cases rest with
          | none => exact List.mem_cons_of_mem _ hrest
          | some es =>
              refine List.Forall₂.cons (fun now row ν ha => ?_) hrest
              have hlits : List.Forall₂ (fun i e => TrueIff E.J row.value now e (Holds ν i))
                  (i :: m) conjs := by
                refine hconjs.imp fun i e hp => ?_
                simpa using hp.grow h₂ now row ν ha
              have h := TrueIff.and hlits
              simpa [CubeSat] using h

theorem toExpression'_spec (hg : Good ls) {ms : Minterms}
    (h : ∀ m ∈ ms, ∀ i ∈ m, PrintsLiteral E self ls i) :
    Runs (self.toExpression' ms) ls fun e ls' => Prints E ls' e ms := by
  unfold Methods.toExpression'
  split_ifs with hnil
  · refine Runs.pure hg fun now row ν _ => ⟨some false, Means.bool false, ?_⟩
    simp [hnil]
  · refine Runs.bind (products_spec ms ls hg h) fun r ls₁ _ hg₁ hr => ?_
    cases r with
    | none =>
        refine Runs.pure hg₁ fun now row ν _ => ⟨some true, Means.bool true, ?_⟩
        exact iff_of_true rfl ⟨[], hr, cubeSat_nil⟩
    | some es =>
        refine Runs.pure hg₁ fun now row ν ha => ?_
        have hcubes : List.Forall₂ (fun m e => TrueIff E.J row.value now e (CubeSat (Holds ν) m))
            ms es := by
          refine hr.imp fun m e hp => ?_
          simpa using hp now row ν ha
        exact TrueIff.or hcubes

/-! ## Literals -/

/-- The literal is printed without a null test beside it. -/
def Direct (ls : List Leaf) (i : Nat) : Prop :=
  ∃ l, ls[i / 4]? = some l ∧ (l.IsNullTest ∧ 2 ≤ i % 4 ∨ ¬ l.IsNullTest ∧ i % 2 = 1)

theorem Direct.grow {i : Nat} (h : Direct ls i) (hpre : ls <+: ls') : Direct ls' i := by
  obtain ⟨l, hl, hi⟩ := h
  exact ⟨l, getElem?_grow hpre hl, hi⟩

theorem holds_div_mod {row : Row} {ν : Nat → Bool} (ha : Agrees row ν ls) {i : Nat} {l : Leaf}
    (hv : ls[i / 4]? = some l) : Sat (Holds ν) [[i]] ↔ l.Says (i % 4) row := by
  rw [sat_cons, or_iff_left sat_nil, cubeSat_cons, and_iff_left cubeSat_nil]
  have h := holds_literal ha hv (Nat.mod_lt i (by omega : 0 < 4))
  rwa [literal_div_mod] at h

theorem isNullTest_not_true {l : Leaf} (h : l.IsNullTest) (row : Row) :
    l.truth row.value ≠ some true ↔ l.truth row.value = some false := by
  cases l with
  | isNull p => by_cases hp : row.value p = none <;> simp [Leaf.truth, hp]
  | param | reversed | compare => exact absurd h id

/-- What `print` answers for a direct literal. -/
theorem print_trueIff {now : Option ℚ} {i : Nat} {l : Leaf} (hi : l.IsNullTest ∧ 2 ≤ i % 4 ∨ ¬ l.IsNullTest ∧ i % 2 = 1)
    (row : Row) :
    TrueIff E.J row.value now
      (Methods.simplifyNot (if decide (i % 4 = 1 ∨ i % 4 = 2) = true
        then .app .not [l.key] else l.key)) (l.Says (i % 4) row) := by
  have hkey : ∀ l : Leaf, Methods.simplifyNot l.key = l.key := by
    intro l
    cases l with
    | reversed op s p | compare p op v => cases op <;> rfl
    | param | isNull => rfl
  have hneg := @Leaf.negated_means E.J row.value now l
  have hpos := @Leaf.key_means E.J row.value now l
  have hlt : i % 4 < 4 := Nat.mod_lt _ (by omega)
  have hparity : i % 2 = i % 4 % 2 := by omega
  rw [hparity] at hi
  generalize i % 4 = k at *
  match k, hlt with
  | 0, _ => simp at hi
  | 1, _ => exact ⟨_, hneg, Kleene.neg_eq_true⟩
  | 2, _ =>
      obtain ⟨hnull, _⟩ | ⟨_, h⟩ := hi
      · exact ⟨_, hneg, Kleene.neg_eq_true.trans (isNullTest_not_true hnull row).symm⟩
      · cases h
  | 3, _ => exact ⟨_, (hkey l).symm ▸ hpos, Iff.rfl⟩

/-- The branch of `literalExpression` for a clause that is no null test. -/
theorem literalExpression_leaf {i : Nat} {l : Leaf} (hl : ls[i / 4]? = some l)
    (hnull : ¬ l.IsNullTest) {post : Expr → List Leaf → Prop}
    (h : Runs (if i % 2 = 0 then do
        let ns ← self.isNullVars l.clause
        self.toExpression ([Methods.flipBoth i] :: ns.map fun n => [literal n 3])
      else do
        let expr ← liftM (self.expression l.clause)
        pure (Methods.simplifyNot
          (if decide (i % 4 = 1 ∨ i % 4 = 2) = true then .app .not [expr] else expr))) ls post) :
    Runs (self.literalExpression i) ls post := by
  unfold Methods.literalExpression
  refine Runs.get_bind ?_
  rw [getClause_ofLeaves hl]
  cases l <;> first | exact h | exact absurd trivial hnull

theorem literalExpression_direct (hm : LeafMethods self) {i : Nat} (hi : Direct ls i) :
    PrintsLiteral E self ls i := by
  intro ls' hpre hg
  obtain ⟨l, hl, hdir⟩ := hi.grow hpre
  have hprint : Runs (do
      let expr ← liftM (self.expression l.clause)
      pure (Methods.simplifyNot
        (if decide (i % 4 = 1 ∨ i % 4 = 2) = true then .app .not [expr] else expr))) ls'
      fun e ls'' => Prints E ls'' e [[i]] := by
    refine Runs.lift_bind (hm.expression l) (Runs.pure hg fun now row ν ha => ?_)
    obtain ⟨t, ht, hlit⟩ := @print_trueIff E now i l hdir row
    exact ⟨t, ht, hlit.trans (holds_div_mod ha hl).symm⟩
  obtain ⟨hnull, hk⟩ | ⟨hnull, hk⟩ := hdir
  · obtain ⟨p, rfl⟩ : ∃ p, l = .isNull p := by
      cases l <;> first | exact ⟨_, rfl⟩ | exact absurd hnull id
    unfold Methods.literalExpression
    refine Runs.get_bind ?_
    rw [getClause_ofLeaves hl]
    change Runs (if i % 4 < 2 then _ else _) ls' _
    rw [if_neg (by omega)]
    exact hprint
  · refine literalExpression_leaf hl hnull ?_
    rw [if_neg (by omega)]
    exact hprint

/-- Covers of direct literals are printed. -/
def PrintsDirect (E : Env) (self : Methods) : Prop :=
  ∀ ls ms, Good ls → (∀ m ∈ ms, ∀ i ∈ m, Direct ls i) →
    Runs (self.toExpression ms) ls fun e ls' => Prints E ls' e ms

/-- "Not true" is false or null, "not false" is true or null. -/
theorem says_half {l : Leaf} {k : Nat} (hk : k = 0 ∨ k = 2) (row : Row) :
    l.Says k row ↔ l.Says (3 - k) row ∨ l.truth row.value = none := by
  obtain rfl | rfl := hk <;> simp only [Leaf.Says] <;>
    rcases l.truth row.value with _ | _ | _ <;> simp

theorem literalExpression_spec (hm : LeafMethods self) (hdirect : PrintsDirect E self)
    {i : Nat} (hi : LitOk ls i) : PrintsLiteral E self ls i := by
  obtain ⟨l, hl, hok⟩ := litOk_iff.mp hi
  by_cases hd : Direct ls i
  · exact literalExpression_direct hm hd
  have hnull : ¬ l.IsNullTest := fun h => hd ⟨l, hl, Or.inl ⟨h, hok h⟩⟩
  have heven : i % 2 = 0 := by
    by_contra h
    exact hd ⟨l, hl, Or.inr ⟨hnull, by omega⟩⟩
  intro ls' hpre hg
  have hl' := getElem?_grow hpre hl
  refine literalExpression_leaf hl' hnull ?_
  rw [if_pos heven]
  refine Runs.bind (isNullVars_spec hm hg hnull) fun ns ls₁ h₁ hg₁ hns => ?_
  obtain ⟨n, rfl, hn⟩ := hns
  have hl₁ := getElem?_grow h₁ hl'
  have hdiv : Methods.flipBoth i / 4 = i / 4 := literal_div_four _ (by omega)
  have hmod : Methods.flipBoth i % 4 = 3 - i % 4 := literal_mod_four _ (by omega)
  refine (hdirect ls₁ [[Methods.flipBoth i], [literal n 3]] hg₁ ?_).mono fun e ls₂ h₂ _ he now row ν ha => ?_
  · simp only [List.forall_mem_cons, List.not_mem_nil, false_imp_iff, implies_true, and_true]
    refine ⟨⟨l, by rwa [hdiv], Or.inr ⟨hnull, by omega⟩⟩, ?_⟩
    refine ⟨.isNull l.name, by rwa [literal_div_four n (by omega)], Or.inl ⟨trivial, ?_⟩⟩
    rw [literal_mod_four n (by omega)]
    omega
  · obtain ⟨t, ht, hiff⟩ := he now row ν ha
    refine ⟨t, ht, hiff.trans ?_⟩
    have hl₂ := getElem?_grow h₂ hl₁
    have hflip : ls₂[Methods.flipBoth i / 4]? = some l := by rwa [hdiv]
    have hhalf := @says_half l (i % 4) (by omega) row
    rw [holds_div_mod ha hl₂, hhalf, ← hmod, ← holds_div_mod ha hflip,
      ← holds_nullTest ha hnull (getElem?_grow h₂ hn)]
    simp

/-! ## The whole cover -/

theorem printsDirect (E : Env) (n : Nat) :
    PrintsDirect E (methods E (n + 4)) := by
  intro ls ms hg hms
  have heq : (methods E (n + 4)).toExpression = Methods.toExpression' (methods E (n + 3)) := rfl
  rw [heq]
  exact toExpression'_spec hg fun m hm i hi =>
    literalExpression_direct (leafMethods E n) (hms m hm i hi)

theorem toExpression_spec (E : Env) (n : Nat) (hg : Good ls) {ms : Minterms}
    {P : Row → Prop} (hP : Denotes ls ms P) :
    Runs ((methods E (n + 5)).toExpression ms) ls fun e _ =>
      ∀ now (row : Row), TrueIff E.J row.value now e (P row) := by
  have heq : (methods E (n + 5)).toExpression = Methods.toExpression' (methods E (n + 4)) := rfl
  rw [heq]
  have h : Runs ((methods E (n + 4)).toExpression' ms) ls fun e ls' => Prints E ls' e ms :=
    toExpression'_spec hg fun m hm i hi => literalExpression_spec (leafMethods E (n + 1))
      (printsDirect E n) (varsOk_iff.mp hP.vars m hm i hi)
  refine h.mono fun e ls' hpre _ he now row => ?_
  obtain ⟨ν, ha⟩ := exists_agrees row ls'
  obtain ⟨t, ht, hiff⟩ := he now row ν ha
  exact ⟨t, ht, hiff.trans ((hP.grow hpre).sat row ν ha)⟩

end

end GenieAcs
