import GenieAcs.SynthPrint

/-!
# Union, difference and cover of filters

What `unionDiff` and `covers` promise of two filters, for any minimiser that
keeps its own promise and any stack that is deep enough for the clauses of
the two filters.
-/

namespace GenieAcs

open Cover

/-! ## A filter on its way to minterms -/

/-- The filter `e` has the normal form `e'`, whose clause is `c`. -/
structure Prepared (E : Env) (e e' : Expr) (c : Clause) : Prop where
  normalize : normalize E.J e = .ok e'
  clause : ∀ n, fromExpression E.J (methods E (n + 1)) e' = .ok c
  plain : Plain c
  means : ∀ now obj, Means E.J obj now e (c.truth E.J none obj)
  literal : e'.isArray = false → ∃ b, e' = Expr.ofBool b ∧ c = .exp (Expr.ofBool b)

section

variable {E : Env} {e e' : Expr} {c : Clause}

theorem Normal.isArray {e : Expr} (h : Normal e) : e.isArray = true ∨ ∃ b, e = Expr.ofBool b := by
  cases h with
  | bool b => exact Or.inr ⟨b, rfl⟩
  | _ => exact Or.inl rfl

theorem Filter.prepared (h : Filter e) : ∃ e' c, Prepared E e e' c := by
  obtain ⟨e', hto, hnormal, hmeans⟩ := @Filter.normalises E.J e h
  obtain ⟨c, hclause, hplain, htruth⟩ := @Normal.hasClause E e' hnormal
  refine ⟨e', c, hto.normalize_eq, hclause, hplain, fun now obj => ?_, fun harray => ?_⟩
  · rw [← hplain.truth_now E.J now obj, htruth now obj]
    exact hmeans obj now
  · obtain h | ⟨b, rfl⟩ := hnormal.isArray
    · rw [h] at harray
      cases harray
    · exact ⟨b, rfl, (Except.ok.inj (hclause 0)).symm⟩

/-- The rows the clause is true on. -/
abbrev Clause.On (E : Env) (c : Clause) (row : Row) : Prop := c.Is E.J none (some true) row

theorem Prepared.truthyOn (h : Prepared E e e' c) (row : Row) (now : Option ℚ) :
    ∃ b, truthyOn E.J row.value now e = .ok b ∧ (b = true ↔ c.On E row) :=
  ⟨_, (h.means now row.value).truthyOn_eq, decide_eq_true_iff⟩

theorem Prepared.true' (h : Prepared E e e' c) (hM : E.M.Exact) {n : Nat} (hn : sizeOf c + 6 ≤ n)
    {ls : List Leaf} (hg : Good ls) :
    Runs ((methods E n).true' c) ls fun ms ls' => Denotes ls' ms (c.On E) :=
  (minterms_spec hM n c h.plain hn).true' ls hg

/-- A falsy normal form is never true. -/
theorem Prepared.never (h : Prepared E e e' c) (hfalsy : e'.truthy = false) (row : Row) :
    ¬ c.On E row := by
  have harray : e'.isArray = false := by
    cases e' with
    | lit v => rfl
    | app op args => cases hfalsy
  obtain ⟨b, rfl, rfl⟩ := h.literal harray
  intro hon
  have htrue : (Expr.ofBool b).truthy = true := by
    have hlit := (@Means.bool E.J row.value none b).exprTruth_eq
    rw [Clause.On, Clause.Is, Clause.truth, hlit] at hon
    cases b with
    | true => rfl
    | false => cases hon
  rw [hfalsy] at htrue
  cases htrue

theorem Filter.truthy {e : Expr} (h : Filter e) : e.truthy = true := by
  cases h <;> rfl

theorem Runs.run {α : Type} {x : SynthM α} {post : α → List Leaf → Prop} (h : Runs x [] post) :
    ∃ a Γ ls, x.run {} = .ok (a, Γ) ∧ Good ls ∧ post a ls := by
  obtain ⟨a, Γ, hrun, ls, _, _, hg, hpost⟩ := h
  exact ⟨a, Γ, ls, hrun, hg, hpost⟩

theorem TrueIff.truthyOn {J : Js} {obj : Lookup} {now : Option ℚ} {P : Prop} {b : Bool}
    (h : TrueIff J obj now e P) (hb : b = true ↔ P) : GenieAcs.truthyOn J obj now e = .ok b := by
  obtain ⟨t, ht, hiff⟩ := h
  rw [ht.truthyOn_eq]
  congr 1
  rw [Bool.eq_iff_iff, decide_eq_true_iff, hiff, hb]

theorem trueIff_false {J : Js} {obj : Lookup} {now : Option ℚ} {P : Prop} (h : ¬ P) :
    TrueIff J obj now (Expr.ofBool false) P :=
  ⟨some false, Means.bool false, by simpa using h⟩

/-! ## `unionDiff` -/

/-- `e` is truthy on exactly the rows that satisfy `P`. -/
def Selects (E : Env) (e : Expr) (P : Row → Prop) : Prop :=
  ∀ now (row : Row), TrueIff E.J row.value now e (P row)

theorem Prepared.selects (h : Prepared E e e' c) : Selects E e (c.On E) :=
  fun now row => ⟨_, h.means now row.value, Iff.rfl⟩

variable {e1 e2 e1' e2' : Expr} {c1 c2 : Clause}

theorem Prepared.unionDiff (hM : E.M.Exact) (h1 : Prepared E e1 e1' c1)
    (h2 : Prepared E e2 e2' c2) (htruthy : e1.truthy = true) {n : Nat}
    (hn1 : sizeOf c1 + 6 ≤ n) (hn2 : sizeOf c2 + 6 ≤ n) :
    ∃ union diff, unionDiff E n e1 e2 = .ok (union, diff)
      ∧ Selects E union (fun row => c1.On E row ∨ c2.On E row)
      ∧ Selects E diff (fun row => c2.On E row ∧ ¬ c1.On E row) := by
  obtain ⟨n, rfl⟩ : ∃ k, n = k + 6 := ⟨n - 6, by omega⟩
  rw [GenieAcs.unionDiff, h2.normalize, htruthy]
  change ∃ union diff, (if (!e2'.truthy) = true then _ else _) = _ ∧ _
  by_cases hfalsy : e2'.truthy = false
  · rw [if_pos (by simp [hfalsy])]
    have hnever := h2.never hfalsy
    refine ⟨e1, Expr.ofBool false, rfl, fun now row => ?_, fun now row => ?_⟩
    · obtain ⟨t, ht, hiff⟩ := h1.selects now row
      exact ⟨t, ht, hiff.trans (or_iff_left (hnever row)).symm⟩
    · exact trueIff_false fun h => hnever row h.1
  rw [if_neg (by simpa using hfalsy)]
  have hrun : Runs (do
      let expr2Minterms ← (methods E (n + 6)).true' c2
      let expr1Minterms ← (methods E (n + 6)).true' c1
      let union ← (methods E (n + 6)).minimize E (expr1Minterms ++ expr2Minterms) []
      let diff ← (methods E (n + 6)).minimize E
        (E.M.complement (expr1Minterms ++ E.M.complement expr2Minterms)) []
      let u ← (methods E (n + 6)).toExpression union
      let d ← (methods E (n + 6)).toExpression diff
      pure (u, d)) [] fun r _ =>
        Selects E r.1 (fun row => c1.On E row ∨ c2.On E row)
          ∧ Selects E r.2 (fun row => c2.On E row ∧ ¬ c1.On E row) := by
    have hm := leafMethods E (n + 3)
    have hrounds : 2 ≤ (methods E (n + 6)).rounds := by
      change 2 ≤ (methods E n).rounds + 1 + 1 + 1 + 1 + 1 + 1
      omega
    refine Runs.bind (h2.true' hM hn2 Good.nil) fun m2 ls₁ _ hg₁ hm2 => ?_
    refine Runs.bind (h1.true' hM hn1 hg₁) fun m1 ls₂ h₂ hg₂ hm1 => ?_
    have hm2₂ := hm2.grow h₂
    refine Runs.bind (minimize_spec hM hm hrounds hg₂ (hm1.append hm2₂))
      fun union ls₃ h₃ hg₃ hunion => ?_
    have hdiffMinterms : Denotes ls₂ (E.M.complement (m1 ++ E.M.complement m2))
        fun row => c2.On E row ∧ ¬ c1.On E row :=
      ((hm1.append (hm2₂.complement hM)).complement hM).congr fun row => by tauto
    refine Runs.bind (minimize_spec hM hm hrounds hg₃ (hdiffMinterms.grow h₃))
      fun diff ls₄ h₄ hg₄ hdiff => ?_
    refine Runs.bind (toExpression_spec E (n + 1) hg₄ (hunion.grow h₄))
      fun u ls₅ h₅ hg₅ hu => ?_
    refine Runs.bind (toExpression_spec E (n + 1) hg₅ (hdiff.grow h₅)) fun d ls₆ _ hg₆ hd => ?_
    exact Runs.pure hg₆ ⟨hu, hd⟩
  obtain ⟨⟨u, d⟩, Γ, _, hrun, _, hu, hd⟩ := hrun.run
  refine ⟨u, d, ?_, hu, hd⟩
  rw [h2.clause (n + 5), h1.normalize]
  change (do
    let synth1 ← fromExpression E.J (methods E (n + 6)) e1'
    _) = _
  rw [h1.clause (n + 5)]
  exact congrArg (fun x : Except JsError ((Expr × Expr) × SynthContext) => x.map Prod.fst) hrun

/-- The union is truthy where one of the filters is, the difference where the
second is and the first is not. -/
theorem unionDiff_exact (hM : E.M.Exact) (h1 : Filter e1) (h2 : Filter e2) :
    ∃ depth, ∀ n ≥ depth, ∃ union diff, GenieAcs.unionDiff E n e1 e2 = .ok (union, diff)
      ∧ ∀ (row : Row) now, ∃ b1 b2, truthyOn E.J row.value now e1 = .ok b1
        ∧ truthyOn E.J row.value now e2 = .ok b2
        ∧ truthyOn E.J row.value now union = .ok (b1 || b2)
        ∧ truthyOn E.J row.value now diff = .ok (b2 && !b1) := by
  obtain ⟨e1', c1, hp1⟩ := @Filter.prepared E e1 h1
  obtain ⟨e2', c2, hp2⟩ := @Filter.prepared E e2 h2
  refine ⟨sizeOf c1 + sizeOf c2 + 6, fun n hn => ?_⟩
  obtain ⟨union, diff, hrun, hunion, hdiff⟩ :=
    hp1.unionDiff hM hp2 h1.truthy (n := n) (by omega) (by omega)
  refine ⟨union, diff, hrun, fun row now => ?_⟩
  obtain ⟨b1, ht1, hb1⟩ := hp1.truthyOn row now
  obtain ⟨b2, ht2, hb2⟩ := hp2.truthyOn row now
  refine ⟨b1, b2, ht1, ht2, (hunion now row).truthyOn ?_, (hdiff now row).truthyOn ?_⟩
  · rw [Bool.or_eq_true, hb1, hb2]
  · rw [Bool.and_eq_true, Bool.not_eq_true', ← Bool.not_eq_true, hb1, hb2]

/-! ## `covers` -/

theorem Prepared.covers (hM : E.M.Exact) (h1 : Prepared E e1 e1' c1)
    (h2 : Prepared E e2 e2' c2) {n : Nat} (hn1 : sizeOf c1 + 6 ≤ n) (hn2 : sizeOf c2 + 6 ≤ n) :
    ∃ b, covers E n e1 e2 = .ok b ∧ (b = true → ∀ row, c2.On E row → c1.On E row) := by
  obtain ⟨n, rfl⟩ : ∃ k, n = k + 6 := ⟨n - 6, by omega⟩
  rw [GenieAcs.covers, h2.normalize]
  change ∃ b, (if (!e2'.truthy) = true then _ else _) = _ ∧ _
  by_cases hfalsy : e2'.truthy = false
  · rw [if_pos (by simp [hfalsy])]
    exact ⟨true, rfl, fun _ row hon => absurd hon (h2.never hfalsy row)⟩
  rw [if_neg (by simpa using hfalsy), h1.normalize]
  change ∃ b, (if (!e1'.isArray) = true then _ else _) = _ ∧ _
  by_cases harray : e1'.isArray = false
  · rw [if_pos (by simp [harray])]
    obtain ⟨b, rfl, rfl⟩ := h1.literal harray
    refine ⟨(Expr.ofBool b).truthy, rfl, fun htrue row _ => ?_⟩
    have hb : b = true := by
      cases b with
      | true => rfl
      | false => cases htrue
    subst hb
    exact (@Means.bool E.J row.value none true).exprTruth_eq
  rw [if_neg (by simpa using harray)]
  have hrun : Runs (do
      let expr1Minterms ← (methods E (n + 6)).true' c1
      let expr2Minterms ← (methods E (n + 6)).true' c2
      let notExpr2 ← (methods E (n + 6)).sanitizeMinterms (E.M.complement expr2Minterms)
      let dc ← (methods E (n + 6)).getDcSet E (expr2Minterms ++ expr1Minterms)
      let expr1' ← (methods E (n + 6)).sanitizeMinterms expr1Minterms
      pure (E.M.tautology (notExpr2 ++ dc ++ expr1'))) [] fun b _ =>
        b = true → ∀ row, c2.On E row → c1.On E row := by
    have hm := leafMethods E (n + 3)
    have hrounds : 2 ≤ (methods E (n + 6)).rounds := by
      change 2 ≤ (methods E n).rounds + 1 + 1 + 1 + 1 + 1 + 1
      omega
    refine Runs.bind (h1.true' hM hn1 Good.nil) fun m1 ls₁ _ hg₁ hm1 => ?_
    refine Runs.bind (h2.true' hM hn2 hg₁) fun m2 ls₂ h₂ hg₂ hm2 => ?_
    have hnot2 := hm2.complement hM
    refine Runs.bind (sanitizeMinterms_spec hm hg₂ hnot2.vars) fun not2 ls₃ h₃ hg₃ hs => ?_
    have hnot2₃ := hs.denotes (hnot2.grow h₃)
    have hm1₃ := hm1.grow (h₂.trans h₃)
    have hboth := (hm2.grow h₃).append hm1₃
    refine Runs.bind (getDcSet_spec E hm hrounds hg₃ hboth.vars) fun dc ls₄ h₄ hg₄ hdc => ?_
    refine Runs.bind (sanitizeMinterms_spec hm hg₄ (hm1₃.grow h₄).vars)
      fun m1' ls₅ h₅ hg₅ hs1 => ?_
    have hm1₅ := hs1.denotes ((hm1₃.grow h₄).grow h₅)
    have hall := ((hnot2₃.grow (h₄.trans h₅)).append (Denotes.grow hdc h₅)).append hm1₅
    refine Runs.pure hg₅ fun htaut row hon => ?_
    obtain ⟨ν, ha⟩ := exists_agrees row ls₅
    obtain (hnot | hdc) | hon1 := (hall.sat row ν ha).mp ((hM.tautology _).mp htaut ν)
    · exact absurd hon hnot
    · exact hdc.elim
    · exact hon1
  obtain ⟨b, Γ, _, hrun, _, hb⟩ := hrun.run
  refine ⟨b, ?_, hb⟩
  rw [h1.clause (n + 5), h2.clause (n + 5)]
  exact congrArg (fun x : Except JsError (Bool × SynthContext) => x.map Prod.fst) hrun

/-- Where `covers` answers yes, the first filter is truthy wherever the second is. -/
theorem covers_sound (hM : E.M.Exact) (h1 : Filter e1) (h2 : Filter e2) :
    ∃ depth, ∀ n ≥ depth, ∃ b, GenieAcs.covers E n e1 e2 = .ok b
      ∧ (b = true → ∀ (row : Row) now, ∃ b1 b2, truthyOn E.J row.value now e1 = .ok b1
        ∧ truthyOn E.J row.value now e2 = .ok b2 ∧ (b2 = true → b1 = true)) := by
  obtain ⟨e1', c1, hp1⟩ := @Filter.prepared E e1 h1
  obtain ⟨e2', c2, hp2⟩ := @Filter.prepared E e2 h2
  refine ⟨sizeOf c1 + sizeOf c2 + 6, fun n hn => ?_⟩
  obtain ⟨b, hrun, hb⟩ := hp1.covers hM hp2 (n := n) (by omega) (by omega)
  refine ⟨b, hrun, fun htrue row now => ?_⟩
  obtain ⟨b1, ht1, hb1⟩ := hp1.truthyOn row now
  obtain ⟨b2, ht2, hb2⟩ := hp2.truthyOn row now
  exact ⟨b1, b2, ht1, ht2, fun h => hb1.mpr (hb htrue row (hb2.mp h))⟩

end

/-! ## Two filters -/

/-- Filters on plain parameters, with a minimiser that does not minimise. -/
def plainEnv : Env := ⟨idleJs, naive Hints⟩

/-- `["OR", [">", ["PARAM", "uptime"], 5], ["IS NULL", ["PARAM", "model"]]]`. -/
def busyOrUnknown : Expr :=
  .app .or [.app .gt [.ofParam (js "uptime"), .lit (some (.num (5 : ℤ)))],
    .app .isNull [.ofParam (js "model")]]

/-- `[">", ["PARAM", "uptime"], 7]`. -/
def busy : Expr := .app .gt [.ofParam (js "uptime"), .lit (some (.num (7 : ℤ)))]

theorem busyOrUnknown_filter : Filter busyOrUnknown := by
  apply Filter.or
  intro e he
  rcases List.mem_cons.mp he with rfl | he
  · exact Filter.compare Op.IsCompare.gt _ (Comparand.int 5)
  · rw [List.mem_singleton.mp he]
    exact Filter.isNull _

theorem busy_filter : Filter busy := Filter.compare Op.IsCompare.gt _ (Comparand.int 7)

/-- `unionDiff_exact` on two filters. -/
theorem unionDiff_exact_busy :
    ∃ depth, ∀ n ≥ depth, ∃ union diff,
      unionDiff plainEnv n busyOrUnknown busy = .ok (union, diff)
      ∧ ∀ (row : Row) now, ∃ b1 b2, truthyOn idleJs row.value now busyOrUnknown = .ok b1
        ∧ truthyOn idleJs row.value now busy = .ok b2
        ∧ truthyOn idleJs row.value now union = .ok (b1 || b2)
        ∧ truthyOn idleJs row.value now diff = .ok (b2 && !b1) :=
  @unionDiff_exact plainEnv _ _ (naive_exact Hints) busyOrUnknown_filter busy_filter

/-- `covers_sound` on two filters. -/
theorem covers_sound_busy :
    ∃ depth, ∀ n ≥ depth, ∃ b, covers plainEnv n busyOrUnknown busy = .ok b
      ∧ (b = true → ∀ (row : Row) now, ∃ b1 b2,
        truthyOn idleJs row.value now busyOrUnknown = .ok b1
        ∧ truthyOn idleJs row.value now busy = .ok b2 ∧ (b2 = true → b1 = true)) :=
  @covers_sound plainEnv _ _ (naive_exact Hints) busyOrUnknown_filter busy_filter

end GenieAcs
