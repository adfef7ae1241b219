import GenieAcs.Expression
import GenieAcs.Lib.Kleene

/-!
# The truth of a filter on a row

A filter that evaluates to a literal is true, false or unknown on a row.
`Means` says which, and has one rule for each operator a filter is built with:
conjunction, disjunction and negation follow three-valued logic, and a
comparison is unknown when one side is null.
-/

namespace GenieAcs

/-- The truth value of a literal. -/
def truth : Option Value → Option Bool
  | none => none
  | some v => some (Expr.lit (some v)).truthy

@[simp]
theorem truth_none : truth none = none := rfl

@[simp]
theorem truth_bool (b : Bool) : truth (some (.bool b)) = some b := rfl

theorem truth_some (v : Value) : truth (some v) = some (Expr.lit (some v)).truthy := rfl

theorem truth_eq_none {v : Option Value} : truth v = none ↔ v = none := by
  cases v <;> simp [truth]

/-- The expression evaluates to a literal with that truth value. -/
def Means (J : Js) (obj : Lookup) (now : Option ℚ) (e : Expr) (t : Option Bool) : Prop :=
  ∃ v, evaluate J e (some obj) now id = .ok (.lit v) ∧ truth v = t

/-- The truth value of an expression; unknown if it does not evaluate. -/
def exprTruth (J : Js) (obj : Lookup) (now : Option ℚ) (e : Expr) : Option Bool :=
  match evaluate J e (some obj) now id with
  | .ok (.lit v) => truth v
  | _ => none

/-- Whether the expression is truthy on the row. -/
def truthyOn (J : Js) (obj : Lookup) (now : Option ℚ) (e : Expr) : Except JsError Bool := do
  let r ← evaluate J e (some obj) now id
  pure r.truthy

variable {J : Js} {obj : Lookup} {now : Option ℚ}

theorem Means.exprTruth_eq {e : Expr} {t : Option Bool} (h : Means J obj now e t) :
    exprTruth J obj now e = t := by
  obtain ⟨v, hv, ht⟩ := h
  rw [exprTruth, hv]
  exact ht

theorem Means.unique {e : Expr} {t u : Option Bool} (ht : Means J obj now e t)
    (hu : Means J obj now e u) : t = u := by
  rw [← ht.exprTruth_eq, ← hu.exprTruth_eq]

theorem Means.truthyOn_eq {e : Expr} {t : Option Bool} (h : Means J obj now e t) :
    truthyOn J obj now e = .ok (decide (t = some true)) := by
  obtain ⟨v, hv, rfl⟩ := h
  rw [truthyOn, hv]
  change Except.ok _ = _
  congr 1
  cases v with
  | none => rfl
  | some v => simp [truth]

/-! ## Walking an expression -/

theorem evaluate_lit (v : Option Value) : evaluate J (.lit v) (some obj) now id = .ok (.lit v) :=
  rfl

theorem mapArgs_of_forall₂ {T : Type} {cb : Shape T → Except JsError T} {es : List Expr}
    {ts : List T} (h : List.Forall₂ (fun e t => e.map cb = .ok t) es ts) :
    Expr.mapArgs cb es = .ok ts := by
  induction h with
  | nil => rfl
  | cons he _ ih =>
      rw [Expr.mapArgs, he, ih]
      rfl

theorem map_app {T : Type} {cb : Shape T → Except JsError T} {op : Op} {es : List Expr}
    {ts : List T} (h : List.Forall₂ (fun e t => e.map cb = .ok t) es ts) :
    (Expr.app op es).map cb = cb (.app op ts) := by
  rw [Expr.map, mapArgs_of_forall₂ h]
  rfl

/-- An operator all of whose arguments evaluate is applied to the literals. -/
theorem evaluate_app {op : Op} {es : List Expr} {vs : List (Option Value)}
    (h : List.Forall₂ (fun e v => evaluate J e (some obj) now id = .ok (.lit v)) es vs) :
    evaluate J (.app op es) (some obj) now id
      = evaluateNode J (some obj) now (.app op (vs.map .lit)) := by
  unfold evaluate at h ⊢
  refine map_app ?_
  rw [List.forall₂_map_right_iff]
  exact h

/-- The values behind the truth values of a list of expressions. -/
theorem exists_values {es : List Expr} {ts : List (Option Bool)}
    (h : List.Forall₂ (Means J obj now) es ts) :
    ∃ vs, List.Forall₂ (fun e v => evaluate J e (some obj) now id = .ok (.lit v)) es vs
      ∧ vs.map truth = ts := by
  induction h with
  | nil => exact ⟨[], List.Forall₂.nil, rfl⟩
  | cons he _ ih =>
      obtain ⟨v, hv, ht⟩ := he
      obtain ⟨vs, hvs, hts⟩ := ih
      exact ⟨v :: vs, List.Forall₂.cons hv hvs, by rw [List.map_cons, ht, hts]⟩

/-! ## Operators on literals -/

theorem isFalseLit_lit (v : Option Value) :
    (Expr.lit v).isFalseLit = true ↔ truth v = some false := by
  rcases v with _ | v <;> simp [Expr.isFalseLit, truth]

theorem any_isFalseLit (vs : List (Option Value)) :
    ((vs.map Expr.lit).any Expr.isFalseLit = true) ↔ some false ∈ vs.map truth := by
  simp only [List.any_eq_true, List.mem_map]
  constructor
  · rintro ⟨_, ⟨v, hv, rfl⟩, h⟩
    exact ⟨v, hv, (isFalseLit_lit v).mp h⟩
  · rintro ⟨v, hv, h⟩
    exact ⟨_, ⟨v, hv, rfl⟩, (isFalseLit_lit v).mpr h⟩

theorem andArgs_lits (vs : List (Option Value)) :
    andArgs (vs.map .lit) = if none ∈ vs then none else some [] := by
  induction vs with
  | nil => rfl
  | cons v vs ih =>
      rcases v with _ | v
      · simp [andArgs]
      · simpa [andArgs] using ih

theorem none_mem_truth {vs : List (Option Value)} : none ∈ vs.map truth ↔ none ∈ vs := by
  simp [truth_eq_none]

/-- The literal with that truth value. -/
def ofTruth (t : Option Bool) : Option Value := t.map .bool

@[simp]
theorem truth_ofTruth (t : Option Bool) : truth (ofTruth t) = t := by
  cases t <;> rfl

theorem evaluateAnd_lits (vs : List (Option Value)) :
    evaluateAnd (vs.map .lit) = .lit (ofTruth (Kleene.all (vs.map truth))) := by
  unfold evaluateAnd Kleene.all
  by_cases hf : some false ∈ vs.map truth
  · rw [if_pos ((any_isFalseLit vs).mpr hf), if_pos hf]
    rfl
  · rw [if_neg fun h => hf ((any_isFalseLit vs).mp h), if_neg hf, andArgs_lits]
    by_cases hn : none ∈ vs
    · rw [if_pos hn, if_pos (none_mem_truth.mpr hn)]
      rfl
    · rw [if_neg hn, if_neg fun h => hn (none_mem_truth.mp h)]
      rfl

theorem orArgs_lits (vs : List (Option Value)) :
    orArgs (vs.map .lit) = if some true ∈ vs.map truth then none else some [] := by
  induction vs with
  | nil => rfl
  | cons v vs ih =>
      rw [List.map_cons, orArgs, ih]
      rcases v with _ | v
      · simp [Expr.truthy, truth]
      · by_cases h : (Expr.lit (some v)).truthy = true <;> simp [h, truth]

theorem evaluateOr_lits (vs : List (Option Value)) :
    evaluateOr (vs.map .lit) = .lit (ofTruth (Kleene.any (vs.map truth))) := by
  unfold evaluateOr Kleene.any
  rw [orArgs_lits]
  by_cases ht : some true ∈ vs.map truth
  · rw [if_pos ht, if_pos ht]
    rfl
  · rw [if_neg ht, if_neg ht]
    have hnull : (vs.map Expr.lit).any (decide <| · = Expr.null) = true ↔ none ∈ vs := by
      simp [Expr.null]
    simp only
    by_cases hn : none ∈ vs
    · rw [if_pos (hnull.mpr hn), if_pos (none_mem_truth.mpr hn)]
      rfl
    · rw [if_neg fun h => hn (hnull.mp h), if_neg fun h => hn (none_mem_truth.mp h)]
      rfl

/-! ## One rule for each operator -/

namespace Means

theorem lit (v : Option Value) : Means J obj now (.lit v) (truth v) :=
  ⟨v, evaluate_lit v, rfl⟩

theorem bool (b : Bool) : Means J obj now (Expr.ofBool b) (some b) :=
  ⟨_, evaluate_lit _, rfl⟩

theorem evaluate_param (p : JsString) :
    evaluate J (.ofParam p) (some obj) now id = .ok (.lit (obj p)) :=
  evaluate_app (List.Forall₂.cons (evaluate_lit (some (.str p))) List.Forall₂.nil)

theorem param (p : JsString) : Means J obj now (.ofParam p) (truth (obj p)) :=
  ⟨_, evaluate_param p, rfl⟩

theorem and {es : List Expr} {ts : List (Option Bool)}
    (h : List.Forall₂ (Means J obj now) es ts) :
    Means J obj now (.app .and es) (Kleene.all ts) := by
  obtain ⟨vs, hvs, rfl⟩ := exists_values h
  refine ⟨_, ?_, truth_ofTruth _⟩
  rw [evaluate_app hvs, ← evaluateAnd_lits]
  rfl

theorem or {es : List Expr} {ts : List (Option Bool)}
    (h : List.Forall₂ (Means J obj now) es ts) :
    Means J obj now (.app .or es) (Kleene.any ts) := by
  obtain ⟨vs, hvs, rfl⟩ := exists_values h
  refine ⟨_, ?_, truth_ofTruth _⟩
  rw [evaluate_app hvs, ← evaluateOr_lits]
  rfl

theorem not {e : Expr} {t : Option Bool} (h : Means J obj now e t) :
    Means J obj now (.app .not [e]) (Kleene.neg t) := by
  obtain ⟨v, hv, rfl⟩ := h
  rw [Means, evaluate_app (List.Forall₂.cons hv List.Forall₂.nil)]
  rcases v with _ | v
  · exact ⟨none, rfl, rfl⟩
  · exact ⟨some (.bool _), rfl, rfl⟩

theorem isNull {e : Expr} {v : Option Value}
    (h : evaluate J e (some obj) now id = .ok (.lit v)) :
    Means J obj now (.app .isNull [e]) (some (decide (v = none))) := by
  rw [Means, evaluate_app (List.Forall₂.cons h List.Forall₂.nil)]
  rcases v with _ | v
  · exact ⟨some (.bool true), rfl, rfl⟩
  · exact ⟨some (.bool false), rfl, rfl⟩

theorem isNotNull {e : Expr} {v : Option Value}
    (h : evaluate J e (some obj) now id = .ok (.lit v)) :
    Means J obj now (.app .isNotNull [e]) (some (decide (v ≠ none))) := by
  rw [Means, evaluate_app (List.Forall₂.cons h List.Forall₂.nil)]
  rcases v with _ | v
  · exact ⟨some (.bool false), rfl, rfl⟩
  · exact ⟨some (.bool true), rfl, rfl⟩

end Means

/-- The six comparison operators. -/
inductive Op.IsCompare : Op → Prop where
  | eq : IsCompare .eq
  | ne : IsCompare .ne
  | gt : IsCompare .gt
  | ge : IsCompare .ge
  | lt : IsCompare .lt
  | le : IsCompare .le

/-- The comparison of two literals. -/
def compareTruth (op : Op) : Option Value → Option Value → Option Bool
  | some v, some w => some (op.holds (v.compare w))
  | _, _ => none

theorem Means.compare {op : Op} (hop : op.IsCompare) {e f : Expr} {v w : Option Value}
    (he : evaluate J e (some obj) now id = .ok (.lit v))
    (hf : evaluate J f (some obj) now id = .ok (.lit w)) :
    Means J obj now (.app op [e, f]) (compareTruth op v w) := by
  rw [Means, evaluate_app (List.Forall₂.cons he (List.Forall₂.cons hf List.Forall₂.nil))]
  rcases v with _ | v
  · cases hop <;> exact ⟨none, rfl, rfl⟩
  · rcases w with _ | w
    · cases hop <;> exact ⟨none, rfl, rfl⟩
    · cases hop <;> exact ⟨some (.bool _), rfl, rfl⟩

end GenieAcs
