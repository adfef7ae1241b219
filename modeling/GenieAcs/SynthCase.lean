import GenieAcs.Lib.FirstMatch
import GenieAcs.SynthSound

/-!
# Minimised filters and CASE expressions

`minimize` of a filter is true on the same rows. A CASE whose conditions are
filters is minimised branch by branch, each condition with the earlier ones as
don't-cares; the first branch that is taken stays the first one. When no
branch with a result is left, `Case.expression` fails.
-/

namespace GenieAcs

open Cover FirstMatch

/-! ## Evaluating a CASE -/

/-- `["CASE", when, then, ...]` with literal results. -/
def caseOf (arms : List (Expr × Option Value)) : Expr :=
  .app .case (arms.flatMap fun a => [a.1, .lit a.2])

section

variable {J : Js} {obj : Lookup} {now : Option ℚ}

theorem evaluateCase_lits {arms : List (Expr × Option Value)} {ps : List (Prop × Option Value)}
    (h : List.Forall₂ (fun a p => TrueIff J obj now a.1 p.1 ∧ a.2 = p.2) arms ps) :
    ∃ vs, List.Forall₂ (fun e v => evaluate J e (some obj) now id = .ok (.lit v))
        (arms.flatMap fun a => [a.1, .lit a.2]) vs
      ∧ ∀ exp, evaluateCase exp (vs.map .lit) = .lit (value ps) := by
  induction h with
  | nil => exact ⟨[], List.Forall₂.nil, fun _ => rfl⟩
  | @cons a p arms ps ha _ ih =>
      obtain ⟨⟨_, ⟨w, hw, rfl⟩, hiff⟩, hresult⟩ := ha
      obtain ⟨vs, hvs, hcase⟩ := ih
      refine ⟨w :: a.2 :: vs, List.Forall₂.cons hw (List.Forall₂.cons (evaluate_lit _) hvs), ?_⟩
      intro exp
      have htruthy : (Expr.lit w).truthy = true ↔ p.1 := by
        rw [← hiff]
        cases w with
        | none => simp [truth, Expr.truthy]
        | some w => simp [truth]
      rw [List.map_cons, List.map_cons, evaluateCase, hcase]
      change (if (Expr.lit w).truthy = true then _ else _) = _
      by_cases hp : p.1
      · rw [if_pos (htruthy.mpr hp), value_cons_pos hp, hresult]
      · rw [if_neg fun h => hp (htruthy.mp h), value_cons_neg hp]

/-- A CASE is the result of the first condition that holds. -/
theorem evaluate_caseOf {arms : List (Expr × Option Value)} {ps : List (Prop × Option Value)}
    (h : List.Forall₂ (fun a p => TrueIff J obj now a.1 p.1 ∧ a.2 = p.2) arms ps) :
    evaluate J (caseOf arms) (some obj) now id = .ok (.lit (value ps)) := by
  obtain ⟨vs, hvs, hcase⟩ := evaluateCase_lits h
  rw [caseOf, evaluate_app hvs]
  exact congrArg Except.ok (hcase _)

end

/-! ## Normalising a CASE -/

/-- The literals that are false or null are left out as conditions. -/
def Expr.mayHold (e : Expr) : Bool := e.isArray || e.truthy

def dropNulls {α : Type} (arms : List (α × Option Value)) : List (α × Option Value) :=
  (arms.reverse.dropWhile fun a => decide (a.2 = none)).reverse

section

variable {J : Js}

theorem caseArms_lits (arms : List (Expr × Option Value)) :
    caseArms (arms.flatMap fun a => [.arm (.expr a.1), .arm (.expr (.lit a.2))])
      = .ok ((arms.filter (·.1.mayHold)).map fun a => (a.1, Arm.expr (.lit a.2))) := by
  induction arms with
  | nil => rfl
  | cons a arms ih =>
      change (if !a.1.isArray ∧ !a.1.truthy then _ else _) = _
      by_cases h : a.1.mayHold = true
      · have hnot : ¬ ((!a.1.isArray) = true ∧ (!a.1.truthy) = true) := by
          simp only [Expr.mayHold, Bool.or_eq_true] at h
          simp only [Bool.not_eq_true']
          rintro ⟨h₁, h₂⟩
          rw [h₁, h₂] at h
          exact h.elim Bool.noConfusion Bool.noConfusion
        have hkeep : (a :: arms).filter (·.1.mayHold) = a :: arms.filter (·.1.mayHold) :=
          List.filter_cons_of_pos h
        rw [if_neg hnot, hkeep]
        exact congrArg (fun x : Except JsError _ => x >>= _) ih
      · have hyes : (!a.1.isArray) = true ∧ (!a.1.truthy) = true := by
          simpa [Expr.mayHold] using h
        have hkeep : (a :: arms).filter (·.1.mayHold) = arms.filter (·.1.mayHold) :=
          List.filter_cons_of_neg h
        rw [if_pos hyes, hkeep]
        exact ih

theorem popNulls_lits {arms : List (Expr × Option Value)} (h : dropNulls arms ≠ []) :
    popNulls (arms.map fun a => (a.1, Arm.expr (.lit a.2)))
      = .ok ((dropNulls arms).map fun a => (a.1, Arm.expr (.lit a.2))) := by
  have hmap : (((arms.map fun a => (a.1, Arm.expr (.lit a.2))).reverse.dropWhile
      fun r => r.2.isNull).reverse) = (dropNulls arms).map fun a => (a.1, Arm.expr (.lit a.2)) := by
    rw [dropNulls, ← List.map_reverse, List.dropWhile_map, ← List.map_reverse]
    congr 3
    funext a
    cases a with
    | mk e v => cases v <;> rfl
  rw [popNulls, hmap]
  cases hd : dropNulls arms with
  | nil => exact absurd hd h
  | cons a rest => rfl

theorem normalize_caseOf {arms arms' : List (Expr × Option Value)}
    (h : List.Forall₂ (fun a a' => NormalizesTo J a.1 a'.1 ∧ a.2 = a'.2) arms arms')
    (hne : dropNulls (arms'.filter (·.1.mayHold)) ≠ []) :
    normalize J (caseOf arms) = .ok (caseOf (dropNulls (arms'.filter (·.1.mayHold)))) := by
  have hargs : List.Forall₂ (fun e t => e.map (normalizeCallback J) = .ok t)
      (arms.flatMap fun a => [a.1, .lit a.2])
      (arms'.flatMap fun a => [.arm (.expr a.1), .arm (.expr (.lit a.2))]) := by
    clear hne
    induction h with
    | nil => exact List.Forall₂.nil
    | cons ha _ ih =>
        rw [List.flatMap_cons, List.flatMap_cons, ha.2]
        exact List.Forall₂.cons ha.1 (List.Forall₂.cons rfl ih)
  have hcase : (caseOf arms).map (normalizeCallback J) = .ok (.case
      ((dropNulls (arms'.filter (·.1.mayHold))).map fun a => (a.1, Arm.expr (.lit a.2)))) := by
    rw [caseOf, map_app hargs]
    change normalizeCase _ = _
    rw [normalizeCase, caseArms_lits]
    change (popNulls _ >>= _) = _
    rw [popNulls_lits hne]
    rfl
  rw [normalize, hcase]
  change (List.mapM (fun wt : Expr × Arm => do
    let t ← wt.2.restore
    pure [wt.1, t]) _ >>= _) = _
  rw [List.mapM_map]
  exact congrArg (fun x : Except JsError _ => x >>= _)
    (@List.mapM_pure _ _ _ _ _ _ fun a : Expr × Option Value => [a.1, .lit a.2])

end

/-! ## The branches of a CASE clause -/

open Methods (Branches)

/-- A condition and a result on the rows. -/
abbrev Guard := (Row → Prop) × Option Value

/-- The guards on one row. -/
def atRow (row : Row) (qs : List Guard) : List (Prop × Option Value) :=
  qs.map fun q => (q.1 row, q.2)

theorem atRow_append (row : Row) (qs qs' : List Guard) :
    atRow row (qs ++ qs') = atRow row qs ++ atRow row qs' := List.map_append

/-- A branch that is opened again for another condition with its result. -/
theorem first_reopened (row : Row) {q : Guard} {v : Option Value} (h : q.2 = v) (P : Row → Prop)
    (qs more : List Guard) :
    first (atRow row (qs.reverse ++ (fun row => P row ∨ q.1 row, v) :: more))
      = first (atRow row ((q :: qs).reverse ++ (P, v) :: more)) := by
  have hor : (P row ∨ q.1 row) = (q.1 row ∨ P row) := propext or_comm
  rw [List.append_cons qs.reverse _ more, List.reverse_cons, List.append_cons _ (P, v) more,
    atRow_append _ _ more, atRow_append _ _ more, first_append, first_append]
  congr 1
  rw [atRow_append, atRow_append, atRow_append]
  change first (atRow row qs.reverse ++ [(P row ∨ q.1 row, v)])
    = first (atRow row qs.reverse ++ [(q.1 row, q.2)] ++ [(P row, v)])
  rw [hor, h, first_concat_same]

/-- The branches built so far say what the guards do. -/
def Built (ls : List Leaf) (cases : Branches) (qs : List Guard) : Prop :=
  List.Forall₂ (fun c q => Denotes ls c.1 q.1 ∧ c.2 = .lit q.2) cases qs

theorem Built.grow {ls ls' : List Leaf} {cases : Branches} {qs : List Guard}
    (h : Built ls cases qs) (hpre : ls <+: ls') : Built ls' cases qs :=
  h.imp fun _ _ hc => ⟨hc.1.grow hpre, hc.2⟩

/-- The don't-cares of the next condition: an earlier one holds. -/
theorem Built.dontCares {ls : List Leaf} {cases : Branches} {qs : List Guard}
    (h : Built ls cases qs) :
    Denotes ls (cases.reverse.flatMap (·.1)) fun row => ∃ q ∈ qs, q.1 row := by
  have hall : List.Forall₂ (fun (q : Guard) ms => Denotes ls ms q.1) qs.reverse
      (cases.reverse.map (·.1)) := by
    rw [List.forall₂_map_right_iff]
    exact (List.rel_reverse h).flip.imp fun _ _ hc => hc.1
  rw [List.flatMap_def]
  exact (Denotes.flatten hall).congr fun row => by simp only [List.mem_reverse]

/-- The clauses of a CASE whose results are literals. -/
def caseClauses (branches : List (Clause × Option Value)) : List Clause :=
  branches.flatMap fun b => [b.1, .exp (.lit b.2)]

def guardsOf (E : Env) (branches : List (Clause × Option Value)) : List Guard :=
  branches.map fun b => (b.1.On E, b.2)

/-- What the loop over the branches needs of what it can call. -/
structure CaseMethods (E : Env) (m : Methods) (branches : List (Clause × Option Value)) :
    Prop where
  leaf : LeafMethods m
  rounds : 2 ≤ m.rounds
  lit : ∀ v, m.expression (.exp (.lit v)) = .ok (.lit v)
  true' : ∀ b ∈ branches, ∀ ls, Good ls →
    Runs (m.true' b.1) ls fun ms ls' => Denotes ls' ms (b.1.On E)
  toExpression : ∀ ls ms P, Good ls → Denotes ls ms P →
    Runs (m.toExpression ms) ls fun e _ => ∀ now (row : Row), TrueIff E.J row.value now e (P row)

section

variable {E : Env} {self : Methods}

/-- The loop adds to what the branches give, row by row. -/
def Extends (cases : Branches) (qs more : List Guard) (ls : List Leaf) : Prop :=
  ∃ qs', Built ls cases qs'
    ∧ ∀ row, first (atRow row qs'.reverse) = first (atRow row (qs.reverse ++ more))

/-- One condition is minimised and its branch added, if it can be taken. -/
theorem addBranch_spec (hM : E.M.Exact) {branches : List (Clause × Option Value)}
    (hm : LeafMethods self) (hrounds : 2 ≤ self.rounds) {rest : List Clause} {ls : List Leaf}
    (hg : Good ls) {when : Minterms} {P : Row → Prop} (hP : Denotes ls when P) {cases : Branches}
    {qs : List Guard} (hbuilt : Built ls cases qs) (v : Option Value)
    (hrest : ∀ ls' cases' qs', Good ls' → Built ls' cases' qs' →
      Runs (self.caseBranches E cases' rest) ls' fun cases'' ls'' =>
        Extends cases'' qs' (guardsOf E branches) ls'') :
    Runs (do
      let minterms ← self.minimize E when (cases.reverse.flatMap (·.1))
      if minterms = [] then self.caseBranches E cases rest
      else if minterms = [[]] then pure ((minterms, .lit v) :: cases)
      else self.caseBranches E ((minterms, .lit v) :: cases) rest) ls fun cases' ls' =>
        Extends cases' qs ((P, v) :: guardsOf E branches) ls' := by
  refine Runs.bind (minimize_dontCare hM hm hrounds hg hP hbuilt.dontCares)
    fun minterms ls₁ h₁ hg₁ hQ => ?_
  obtain ⟨Q, hQ, hcare⟩ := hQ
  have hnew : ∀ row, first (atRow row (qs.reverse ++ [(Q, v)]))
      = first (atRow row (qs.reverse ++ [(P, v)])) := by
    intro row
    rw [atRow_append, atRow_append]
    apply first_concat_congr
    intro hno
    apply hcare
    rintro ⟨q, hq, hqrow⟩
    exact hno (q.1 row, q.2) (List.mem_map.mpr ⟨q, List.mem_reverse.mpr hq, rfl⟩) hqrow
  have hsplit : ∀ row, first (atRow row (qs.reverse ++ (P, v) :: guardsOf E branches))
      = (first (atRow row (qs.reverse ++ [(Q, v)]))).or (first (atRow row (guardsOf E branches))) := by
    intro row
    rw [hnew, List.append_cons, atRow_append, first_append]
  by_cases hempty : minterms = []
  · -- the condition is never met first
    rw [if_pos hempty]
    refine (hrest ls₁ cases qs hg₁ (hbuilt.grow h₁)).mono fun cases' ls₂ _ _ h => ?_
    obtain ⟨qs', hbuilt', hsame⟩ := h
    refine ⟨qs', hbuilt', fun row => ?_⟩
    have hnever : ¬ Q row := (hempty ▸ hQ).of_never row
    rw [hsame, hsplit, atRow_append, atRow_append, first_append, first_append]
    congr 1
    exact (first_single_neg hnever).symm ▸ (Option.or_none).symm
  · rw [if_neg hempty]
    have hbuilt₁ : Built ls₁ ((minterms, .lit v) :: cases) ((Q, v) :: qs) :=
      List.Forall₂.cons ⟨hQ, rfl⟩ (hbuilt.grow h₁)
    split_ifs with htrue
    · -- no later branch is reached
      refine Runs.pure hg₁ ⟨(Q, v) :: qs, hbuilt₁, fun row => ?_⟩
      have halways : Q row := (htrue ▸ hQ).of_always row
      rw [hsplit, List.reverse_cons, atRow_append, ← first_append]
      refine (first_append_always ⟨(Q row, v), ?_, halways⟩).symm
      exact List.mem_append_right _ (List.mem_singleton_self _)
    · refine (hrest ls₁ _ _ hg₁ hbuilt₁).mono fun cases' ls₂ _ _ h => ?_
      obtain ⟨qs', hbuilt', hsame⟩ := h
      refine ⟨qs', hbuilt', fun row => ?_⟩
      rw [hsame, hsplit, List.reverse_cons, atRow_append, first_append]

theorem caseBranches_spec (hM : E.M.Exact) (branches : List (Clause × Option Value))
    (hm : CaseMethods E self branches) :
    ∀ ls cases qs, Good ls → Built ls cases qs →
      Runs (self.caseBranches E cases (caseClauses branches)) ls fun cases' ls' =>
        Extends cases' qs (guardsOf E branches) ls' := by
  induction branches with
  | nil =>
      intro ls cases qs hg hbuilt
      exact Runs.pure hg ⟨qs, hbuilt, fun row => by rw [guardsOf, List.map_nil, List.append_nil]⟩
  | cons b branches ih =>
      intro ls cases qs hg hbuilt
      have hrest := ih ⟨hm.leaf, hm.rounds, hm.lit,
        fun b' hb' => hm.true' b' (List.mem_cons_of_mem _ hb'), hm.toExpression⟩
      have hcons : caseClauses (b :: branches)
          = b.1 :: .exp (.lit b.2) :: caseClauses branches := rfl
      rw [hcons, Methods.caseBranches]
      refine Runs.bind (hm.true' b (List.mem_cons_self ..) ls hg) fun when ls₁ h₁ hg₁ hwhen => ?_
      refine Runs.lift_bind (hm.lit b.2) ?_
      have hbuilt₁ := hbuilt.grow h₁
      have hadd := fun when P => @addBranch_spec E self hM branches hm.leaf hm.rounds
        (caseClauses branches) ls₁ hg₁ when P
      cases hbuilt₁ with
      | nil => exact hadd _ _ hwhen List.Forall₂.nil b.2 hrest
      | @cons c q cases qs hc hbefore =>
          obtain ⟨when', result'⟩ := c
          obtain ⟨hwhen', hresult⟩ := hc
          dsimp only at hwhen' hresult ⊢
          subst hresult
          split_ifs with hsame
          · -- the branch before is opened again
            have hsame' : q.2 = b.2 := by simpa using hsame
            refine (hadd _ _ (hwhen.append hwhen') hbefore b.2 hrest).mono fun cases' ls₂ _ _ h => ?_
            obtain ⟨qs', hbuilt', hfirst⟩ := h
            refine ⟨qs', hbuilt', fun row => ?_⟩
            rw [hfirst]
            exact first_reopened row hsame' (b.1.On E) qs (guardsOf E branches)
          · exact hadd _ _ hwhen (List.Forall₂.cons ⟨hwhen', rfl⟩ hbefore) b.2 hrest

/-- Trailing null results are dropped on both sides. -/
theorem Built.dropNulls {ls : List Leaf} {cases : Branches} {qs : List Guard}
    (h : Built ls cases qs) :
    Built ls (cases.dropWhile fun c => decide (c.2 = Expr.null))
      (qs.dropWhile fun q => decide (q.2 = none)) := by
  induction h with
  | nil => exact List.Forall₂.nil
  | @cons c q cases qs hc hrest ih =>
      have hsame : decide (c.2 = Expr.null) = decide (q.2 = none) := by
        rw [hc.2, Expr.null]
        simp
      rw [List.dropWhile_cons, List.dropWhile_cons, hsame]
      split_ifs with hnull
      · exact ih
      · exact List.Forall₂.cons hc hrest

theorem value_dropNulls (row : Row) (qs : List Guard) :
    value (atRow row (qs.dropWhile fun q => decide (q.2 = none)).reverse)
      = value (atRow row qs.reverse) := by
  have hdrop : atRow row (qs.dropWhile fun q => decide (q.2 = none))
      = (atRow row qs).dropWhile fun p => decide (p.2 = none) := by
    rw [atRow, atRow, List.dropWhile_map]
    rfl
  have h := value_dropDefaults (fun p : Prop × Option Value => decide (p.2 = none))
    (fun _ hp => of_decide_eq_true hp) (atRow row qs)
  rw [← hdrop] at h
  simpa only [atRow, List.map_reverse] using h

/-- Each condition is printed beside its result. -/
theorem printBranches_spec {branches : List (Clause × Option Value)}
    (hm : CaseMethods E self branches) {ls : List Leaf} {cases : Branches} {qs : List Guard}
    (hbuilt : Built ls cases qs) :
    ∀ ls', ls <+: ls' → Good ls' → Runs (cases.mapM fun c => do
        let w ← self.toExpression c.1
        pure [w, c.2]) ls' fun args _ => ∃ outs : List (Expr × Option Value),
          args.flatten = outs.flatMap (fun a => [a.1, .lit a.2]) ∧ ∀ now (row : Row),
            List.Forall₂ (fun a p => TrueIff E.J row.value now a.1 p.1 ∧ a.2 = p.2) outs
              (atRow row qs) := by
  induction hbuilt with
  | nil => exact fun ls' _ hg => Runs.pure hg ⟨[], rfl, fun _ _ => List.Forall₂.nil⟩
  | @cons c q cases qs hc _ ih =>
      intro ls' hpre hg
      rw [List.mapM_cons]
      have hone : Runs (do
          let w ← self.toExpression c.1
          pure [w, c.2]) ls' fun arg _ => ∃ w, arg = [w, c.2] ∧ ∀ now (row : Row),
            TrueIff E.J row.value now w (q.1 row) := by
        refine Runs.bind (hm.toExpression ls' c.1 q.1 hg (hc.1.grow hpre)) fun w ls₁ _ hg₁ hw => ?_
        exact Runs.pure hg₁ ⟨w, rfl, hw⟩
      refine Runs.bind hone fun arg ls₁ h₁ hg₁ harg => ?_
      refine Runs.bind (ih ls₁ (hpre.trans h₁) hg₁) fun args ls₂ _ hg₂ hargs => ?_
      obtain ⟨w, rfl, hw⟩ := harg
      obtain ⟨outs, hflat, houts⟩ := hargs
      refine Runs.pure hg₂ ⟨(w, q.2) :: outs, ?_, ?_⟩
      · rw [List.flatten_cons, hflat, hc.2]
        rfl
      · exact fun now row => List.Forall₂.cons ⟨hw now row, rfl⟩ (houts now row)

/-- What `caseExpression` does with the branches it keeps. -/
def Methods.printCases (self : Methods) : List (Minterms × Expr) → SynthM Expr
  | [] => throw .typeError
  | cases => do
      let args ← cases.mapM fun c => do
        let w ← self.toExpression c.1
        pure [w, c.2]
      pure (Expr.app .case args.flatten)

/-- A CASE of which some row takes a branch with a result. -/
theorem caseExpression_spec (hM : E.M.Exact) {branches : List (Clause × Option Value)}
    (hm : CaseMethods E self branches)
    (hsome : ∃ row, value (atRow row (guardsOf E branches)) ≠ none) :
    ∃ outs qs, self.caseExpression E (caseClauses branches) = .ok (caseOf outs)
      ∧ (∀ now (row : Row),
          List.Forall₂ (fun a p => TrueIff E.J row.value now a.1 p.1 ∧ a.2 = p.2) outs
            (atRow row qs))
      ∧ ∀ row, value (atRow row qs) = value (atRow row (guardsOf E branches)) := by
  have hrun : Runs (do
      let cases ← self.caseBranches E [] (caseClauses branches)
      self.printCases (cases.dropWhile fun c => decide (c.2 = Expr.null)).reverse) [] fun e _ => ∃ outs qs, e = caseOf outs
            ∧ (∀ now (row : Row),
              List.Forall₂ (fun a p => TrueIff E.J row.value now a.1 p.1 ∧ a.2 = p.2) outs
                (atRow row qs))
            ∧ ∀ row, value (atRow row qs) = value (atRow row (guardsOf E branches)) := by
    refine Runs.bind (caseBranches_spec hM branches hm [] [] [] Good.nil List.Forall₂.nil)
      fun cases ls₁ _ hg₁ hext => ?_
    obtain ⟨qs, hbuilt, hfirst⟩ := hext
    have hkept := List.rel_reverse hbuilt.dropNulls
    have hvalue : ∀ row, value (atRow row (qs.dropWhile fun q => decide (q.2 = none)).reverse)
        = value (atRow row (guardsOf E branches)) := by
      intro row
      rw [value_dropNulls, value, hfirst row]
      rfl
    generalize (cases.dropWhile fun c => decide (c.2 = Expr.null)).reverse = kept at hkept
    generalize (qs.dropWhile fun q => decide (q.2 = none)).reverse = guards at hkept hvalue
    cases hkept with
    | nil =>
        obtain ⟨row, hrow⟩ := hsome
        exact absurd (hvalue row).symm hrow
    | cons hc hrest =>
        have hprint := printBranches_spec hm (List.Forall₂.cons hc hrest) ls₁ List.prefix_rfl hg₁
        refine Runs.bind hprint fun args ls₂ _ hg₂ hargs => ?_
        obtain ⟨outs, hflat, houts⟩ := hargs
        exact Runs.pure hg₂ ⟨outs, _, by rw [hflat, caseOf], houts, hvalue⟩
  obtain ⟨e, Γ, _, hrun, _, outs, qs, rfl, houts, hvalue⟩ := hrun.run
  refine ⟨outs, qs, ?_, houts, hvalue⟩
  exact congrArg (fun x : Except JsError (Expr × SynthContext) => x.map Prod.fst) hrun

end

/-! ## `minimize` -/

section

variable {E : Env}

/-- A filter with the truth values it is true on. -/
theorem Prepared.minimize (hM : E.M.Exact) {e e' : Expr} {c : Clause} (h : Prepared E e e' c)
    {n : Nat} (hn : sizeOf c + 12 ≤ n) :
    ∃ r, minimize E n e true = .ok r ∧ Selects E r (c.On E) := by
  obtain ⟨n, rfl⟩ : ∃ k, n = k + 7 := ⟨n - 7, by omega⟩
  have hplain : Plain (.not (.not c)) := h.plain.not.not
  have hrun : Runs (do
      let minterms ← (methods E (n + 6)).true' (.not (.not c))
      let minimized ← (methods E (n + 6)).minimize E minterms []
      (methods E (n + 6)).toExpression minimized) [] fun r _ => Selects E r (c.On E) := by
    have hrounds : 2 ≤ (methods E (n + 6)).rounds := by
      change 2 ≤ (methods E n).rounds + 1 + 1 + 1 + 1 + 1 + 1
      omega
    have hsize : sizeOf (Clause.not (.not c)) + 6 ≤ n + 6 := by
      simp only [Clause.not.sizeOf_spec]
      omega
    have hon : ∀ row, (Clause.not (.not c)).Is E.J none (some true) row ↔ c.On E row := by
      intro row
      rw [Clause.Is, Clause.truth, Clause.truth, Kleene.neg_neg]
      rfl
    refine Runs.bind ((@minterms_spec none E hM (n + 6) _ hplain hsize).true' [] Good.nil)
      fun ms ls₁ _ hg₁ hms => ?_
    refine Runs.bind (minimize_spec hM (leafMethods E (n + 3)) hrounds hg₁ (hms.congr hon))
      fun minimized ls₂ _ hg₂ hmin => ?_
    exact toExpression_spec E (n + 1) hg₂ hmin
  obtain ⟨r, Γ, _, hrun, _, hr⟩ := hrun.run
  refine ⟨r, ?_, hr⟩
  rw [GenieAcs.minimize, h.normalize]
  change (do
    let synth ← fromExpression E.J (methods E (n + 7)) e'
    _) = _
  rw [h.clause (n + 6)]
  exact congrArg (fun x : Except JsError (Expr × SynthContext) => x.map Prod.fst) hrun

/-- A branch of a CASE: its condition as it is normalised, the clause of that
and the result. -/
abbrev PreparedBranch := (Expr × Clause) × Option Value

def PreparedBranch.arm (b : PreparedBranch) : Expr × Option Value := (b.1.1, b.2)

def PreparedBranch.branch (b : PreparedBranch) : Clause × Option Value := (b.1.2, b.2)

theorem dropNulls_map {α β : Type} (f : α → β) (bs : List (α × Option Value)) :
    dropNulls (bs.map fun b => (f b.1, b.2)) = (dropNulls bs).map fun b => (f b.1, b.2) := by
  rw [dropNulls, dropNulls, ← List.map_reverse, List.dropWhile_map, ← List.map_reverse]
  rfl

/-- The branches that normalisation leaves. -/
def keptBranches (bs : List PreparedBranch) : List PreparedBranch :=
  dropNulls (bs.filter (·.1.1.mayHold))

theorem keptBranches_arms (bs : List PreparedBranch) :
    dropNulls ((bs.map PreparedBranch.arm).filter (·.1.mayHold))
      = (keptBranches bs).map PreparedBranch.arm := by
  rw [List.filter_map]
  exact dropNulls_map Prod.fst _

theorem keptBranches_value {bs : List PreparedBranch}
    (h : ∀ b ∈ bs, ∃ e, Prepared E e b.1.1 b.1.2) (row : Row) :
    value (atRow row (guardsOf E ((keptBranches bs).map PreparedBranch.branch)))
      = value (atRow row (guardsOf E (bs.map PreparedBranch.branch))) := by
  have hguards : ∀ bs : List PreparedBranch,
      atRow row (guardsOf E (bs.map PreparedBranch.branch))
        = bs.map fun b => (b.1.2.On E row, b.2) := by
    intro bs
    rw [atRow, guardsOf, List.map_map, List.map_map]
    rfl
  rw [hguards, hguards]
  have hnulls := value_dropDefaults (fun p : Prop × Option Value => decide (p.2 = none))
    (fun _ hp => of_decide_eq_true hp)
    ((bs.filter (·.1.1.mayHold)).reverse.map fun b => (b.1.2.On E row, b.2))
  rw [List.dropWhile_map, ← List.map_reverse, ← List.map_reverse, List.reverse_reverse] at hnulls
  refine Eq.trans hnulls ?_
  rw [value, value]
  congr 1
  refine first_filter (fun b : PreparedBranch => b.1.1.mayHold) _ ?_
  intro b hb hkeep
  obtain ⟨e, he⟩ := h b hb
  apply he.never
  simp only [Expr.mayHold, Bool.or_eq_false_iff] at hkeep
  exact hkeep.2

theorem resultsBoolean_caseClauses {branches : List (Clause × Option Value)}
    (h : ∃ b ∈ branches, ∃ v, b.2 = some v ∧ v.IsScalar) :
    Clause.resultsBoolean (caseClauses branches) = false := by
  induction branches with
  | nil =>
      obtain ⟨_, hb, _⟩ := h
      cases hb
  | cons b branches ih =>
      change (Clause.isBoolean (.exp (.lit b.2)) && Clause.resultsBoolean (caseClauses branches))
        = false
      rw [Bool.and_eq_false_iff]
      obtain ⟨b', hb', v, hv, hscalar⟩ := h
      rcases List.mem_cons.mp hb' with rfl | hb'
      · left
        rw [hv]
        cases v with
        | bool b => exact absurd rfl (hscalar b)
        | num | str => rfl
      · exact Or.inr (ih ⟨b', hb', v, hv, hscalar⟩)

theorem fromExpression_caseOf {bs : List PreparedBranch}
    (h : ∀ b ∈ bs, ∃ e, Prepared E e b.1.1 b.1.2) (n : Nat) :
    fromExpression E.J (methods E (n + 1)) (caseOf (bs.map PreparedBranch.arm))
      = .ok (.case (caseClauses (bs.map PreparedBranch.branch))) := by
  have hargs : List.Forall₂ (fun e c => e.map (clauseCallback E.J (methods E (n + 1))) = .ok c)
      ((bs.map PreparedBranch.arm).flatMap fun a => [a.1, .lit a.2])
      (caseClauses (bs.map PreparedBranch.branch)) := by
    induction bs with
    | nil => exact List.Forall₂.nil
    | cons b bs ih =>
        obtain ⟨e, he⟩ := h b (List.mem_cons_self ..)
        exact List.Forall₂.cons (he.clause n) (List.Forall₂.cons (clause_lit _ _)
          (ih fun b' hb' => h b' (List.mem_cons_of_mem _ hb')))
  exact map_app hargs

/-- The conditions are filters, the results strings, numbers or null. -/
def CaseOfFilters (arms : List (Expr × Option Value)) : Prop :=
  ∀ a ∈ arms, Filter a.1 ∧ ∀ v, a.2 = some v → v.IsScalar

theorem Prepared.normalizesTo {e e' : Expr} {c : Clause} (h : Prepared E e e' c)
    (hfilter : Filter e) : NormalizesTo E.J e e' := by
  obtain ⟨e'', hto, _⟩ := @Filter.normalises E.J e hfilter
  have hsame := h.normalize.symm.trans hto.normalize_eq
  rw [Except.ok.inj hsame]
  exact hto

/-- The branch is the arm with its condition prepared. -/
def Prepares (E : Env) (a : Expr × Option Value) (b : PreparedBranch) : Prop :=
  Prepared E a.1 b.1.1 b.1.2 ∧ NormalizesTo E.J a.1 b.1.1 ∧ a.2 = b.2

theorem CaseOfFilters.prepared {arms : List (Expr × Option Value)} (h : CaseOfFilters arms) :
    ∃ bs : List PreparedBranch,
      List.Forall₂ (Prepares E) arms bs
      ∧ ∀ b ∈ bs, (∃ e, Prepared E e b.1.1 b.1.2) ∧ ∀ v, b.2 = some v → v.IsScalar := by
  induction arms with
  | nil => exact ⟨[], List.Forall₂.nil, by simp⟩
  | cons a arms ih =>
      obtain ⟨bs, hbs, hall⟩ := ih fun a' ha' => h a' (List.mem_cons_of_mem _ ha')
      obtain ⟨hfilter, hscalar⟩ := h a (List.mem_cons_self ..)
      obtain ⟨e', c, hp⟩ := @Filter.prepared E a.1 hfilter
      exact ⟨((e', c), a.2) :: bs, List.Forall₂.cons ⟨hp, hp.normalizesTo hfilter, rfl⟩ hbs,
        List.forall_mem_cons.mpr ⟨⟨⟨_, hp⟩, hscalar⟩, hall⟩⟩

theorem sizeOf_le_of_mem {bs : List PreparedBranch} {b : PreparedBranch} (h : b ∈ bs) :
    sizeOf b.1.2 ≤ sizeOf (bs.map fun b => b.1.2) :=
  Nat.le_of_lt (List.sizeOf_lt_of_mem (List.mem_map_of_mem h))

theorem keptBranches_subset (bs : List PreparedBranch) : keptBranches bs ⊆ bs := by
  intro b hb
  rw [keptBranches, dropNulls, List.mem_reverse] at hb
  exact List.mem_of_mem_filter
    (List.mem_reverse.mp ((List.dropWhile_sublist _).subset hb))

/-- On every row the CASE is the result of the first clause that is true. -/
theorem evaluate_prepared {arms : List (Expr × Option Value)} {bs : List PreparedBranch}
    (h : List.Forall₂ (Prepares E) arms bs) (row : Row)
    (now : Option ℚ) :
    evaluate E.J (caseOf arms) (some row.value) now id
      = .ok (.lit (value (atRow row (guardsOf E (bs.map PreparedBranch.branch))))) := by
  apply evaluate_caseOf
  rw [atRow, guardsOf, List.map_map, List.map_map, List.forall₂_map_right_iff]
  exact h.imp fun a b hab => ⟨hab.1.selects now row, hab.2.2⟩

/-- What the loop over the branches calls is deep enough for their clauses. -/
theorem caseMethods (hM : E.M.Exact) {bs : List PreparedBranch}
    (h : ∀ b ∈ bs, ∃ e, Prepared E e b.1.1 b.1.2) {n : Nat}
    (hn : ∀ b ∈ bs, sizeOf b.1.2 + 6 ≤ n + 6) :
    CaseMethods E (methods E (n + 6)) (bs.map PreparedBranch.branch) where
  leaf := leafMethods E (n + 3)
  rounds := by
    change 2 ≤ (methods E n).rounds + 1 + 1 + 1 + 1 + 1 + 1
    omega
  lit _ := rfl
  true' := by
    intro _ hmem ls hg
    obtain ⟨b, hb, rfl⟩ := List.mem_map.mp hmem
    obtain ⟨e, he⟩ := h b hb
    exact he.true' hM (hn b hb) hg
  toExpression _ _ _ hg hP := toExpression_spec E (n + 1) hg hP

/-- A CASE that is not null everywhere keeps its value on every row. -/
theorem minimize_caseOf (hM : E.M.Exact) {arms : List (Expr × Option Value)}
    (harms : CaseOfFilters arms)
    (hsome : ∃ (row : Row) (now : Option ℚ) (v : Value),
      evaluate E.J (caseOf arms) (some row.value) now id = .ok (.lit (some v))) :
    ∃ depth, ∀ n ≥ depth, ∃ e, minimize E n (caseOf arms) false = .ok e
      ∧ ∀ (row : Row) now, ∃ v,
        evaluate E.J (caseOf arms) (some row.value) now id = .ok (.lit v)
        ∧ evaluate E.J e (some row.value) now id = .ok (.lit v) := by
  obtain ⟨bs, hbs, hall⟩ := @CaseOfFilters.prepared E arms harms
  have hprepared := fun b hb => (hall b hb).1
  have hkept := fun b (hb : b ∈ keptBranches bs) => hprepared b (keptBranches_subset bs hb)
  obtain ⟨row, now, v, hv⟩ := hsome
  have hvalue : value (atRow row (guardsOf E ((keptBranches bs).map PreparedBranch.branch)))
      = some v := by
    rw [evaluate_prepared hbs] at hv
    rw [keptBranches_value hprepared]
    exact Expr.lit.inj (Except.ok.inj hv)
  obtain ⟨b, hb, hresult⟩ : ∃ b ∈ keptBranches bs, b.2 = some v := by
    obtain ⟨_, hp, _, hresult⟩ := exists_of_value hvalue
    obtain ⟨_, hq, rfl⟩ := List.mem_map.mp hp
    obtain ⟨_, hr, rfl⟩ := List.mem_map.mp hq
    obtain ⟨b, hb, rfl⟩ := List.mem_map.mp hr
    exact ⟨b, hb, hresult⟩
  have hnormal : normalize E.J (caseOf arms)
      = .ok (caseOf ((keptBranches bs).map PreparedBranch.arm)) := by
    rw [← keptBranches_arms]
    apply normalize_caseOf
    · rw [List.forall₂_map_right_iff]
      exact hbs.imp fun a b hab => hab.2
    · rw [keptBranches_arms]
      exact List.ne_nil_of_mem (List.mem_map_of_mem hb)
  have hboolean : (Clause.case (caseClauses ((keptBranches bs).map
      PreparedBranch.branch))).isBoolean = false :=
    resultsBoolean_caseClauses ⟨_, List.mem_map_of_mem hb, v, hresult,
      (hall b (keptBranches_subset bs hb)).2 v hresult⟩
  refine ⟨sizeOf (bs.map fun b => b.1.2) + 7, fun n hn => ?_⟩
  obtain ⟨n, rfl⟩ : ∃ k, n = k + 7 := ⟨n - 7, by omega⟩
  have hsize : ∀ b ∈ keptBranches bs, sizeOf b.1.2 + 6 ≤ n + 6 := by
    intro b hb
    have := sizeOf_le_of_mem (keptBranches_subset bs hb)
    omega
  obtain ⟨outs, qs, hcase, houts, hqs⟩ := caseExpression_spec hM (caseMethods hM hkept hsize)
    ⟨row, by rw [hvalue]; exact Option.some_ne_none v⟩
  refine ⟨caseOf outs, ?_, fun row now => ?_⟩
  · rw [minimize, hnormal]
    change (do
      let synth ← fromExpression E.J (methods E (n + 7)) _
      _) = _
    rw [fromExpression_caseOf hkept]
    change Methods.expression' E (methods E (n + 6)) (.case _) = _
    rw [Methods.expression', hboolean]
    exact hcase
  · refine ⟨_, evaluate_prepared hbs row now, ?_⟩
    rw [evaluate_caseOf (houts now row), hqs, keptBranches_value hprepared]

end

/-- A device that is up for some time. -/
def upRow : Row where
  value p := if p = js "uptime" then some (.num 9) else some (.str (js "x"))
  deviceId := by decide
  id := by decide

/-- `["CASE", ["AND", ["IS NULL", model], ["IS NOT NULL", model]], "none"]`. -/
def neverCase : List (Expr × Option Value) :=
  [(.app .and [.app .isNull [.ofParam (js "model")], .app .isNotNull [.ofParam (js "model")]],
    some (.str (js "none")))]

theorem minimize_neverCase (n : Nat) :
    minimize plainEnv (n + 16) (caseOf neverCase) false = .error .typeError := by
  set_option maxRecDepth 100000 in with_unfolding_all rfl

end GenieAcs
