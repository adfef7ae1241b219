import GenieAcs.Residuals

/-!
# Partial evaluation

The residual of an expression has the value of the expression if no node of it
is an exception, and an expression of which every part keeps its value has no
exception in it.
-/

namespace GenieAcs

namespace Split

variable {m : Split} {J : Js} {ss : List Expr} {vs : List (Option Value)} {v : Option Value}

/-! ## Whole expressions -/

theorem evaluateKnown_app (op : Op) {args : List Expr}
    (h : List.Forall₂ (fun e s => m.evaluateKnown J e = .ok s) args ss) :
    m.evaluateKnown J (.app op args) = m.nodeKnown J op ss :=
  map_app h

/-- What the first stage makes of an expression, and its value in the second. -/
def Residual (m : Split) (J : Js) (e : Expr) (w : Option Value) : Prop :=
  ∃ r, m.evaluateKnown J e = .ok r ∧ Evaluates J m.remaining m.now r w

theorem Residual.evaluateTwice_eq {e : Expr} {w : Option Value} (h : m.Residual J e w) :
    m.evaluateTwice J e = .ok (.lit w) := by
  obtain ⟨r, hr, hw⟩ := h
  rw [evaluateTwice, hr]
  exact hw.evaluate_eq

theorem Residual.preserves_iff {e : Expr} {v w : Option Value} (h : m.Residual J e w)
    (hv : Evaluates J m.whole m.now e v) : m.Preserves J e ↔ w = v := by
  rw [Preserves, h.evaluateTwice_eq, evaluateWhole, hv.evaluate_eq]
  simp

/-- One node over operands whose residuals have their values. -/
theorem residual_app {op : Op} {args : List Expr}
    (hvs : List.Forall₂ (Evaluates J m.whole m.now) args vs)
    (hv : evaluateNode J (some m.whole) m.now (.app op (vs.map .lit)) = .ok (.lit v))
    (hargs : List.Forall₂ (m.Residual J) args vs) :
    ∃ w, m.Residual J (.app op args) w ∧ (w = v ↔ m.NodeFine J (.app op args)) := by
  obtain ⟨ss, hss, hws⟩ := forall₂_between hargs
  obtain ⟨w, ⟨r, hr, hw⟩, hfine⟩ := leaves_iff hws hv
  refine ⟨w, ⟨r, (evaluateKnown_app op hss).trans hr, hw⟩, hfine.trans ?_⟩
  have hvalues : List.Forall₂ (fun e v => m.evaluateWhole J e = .ok (.lit v)) args vs :=
    hvs.imp fun _ _ h => h.evaluate_eq
  constructor
  · intro hop ss' vs' hss' hvs'
    have hsame : ss = ss' := List.right_unique_forall₂'
      (fun _ _ _ h h' => Except.ok.inj (h.symm.trans h')) hss hss'
    have hsame' : vs = vs' := List.right_unique_forall₂'
      (fun _ _ _ h h' => Expr.lit.inj (Except.ok.inj (h.symm.trans h'))) hvalues hvs'
    rw [← hsame, ← hsame']
    exact hop
  · intro hnode
    exact hnode ss vs hss hvalues

theorem residual_of_fine {e : Expr} (hv : Evaluates J m.whole m.now e v)
    (hfine : Throughout (m.NodeFine J) e) : m.Residual J e v := by
  induction e using Expr.induction generalizing v with
  | lit w =>
      obtain rfl := Evaluates.lit_iff.mp hv
      exact ⟨_, rfl, .lit _⟩
  | app op args ih =>
      cases hv with
      | app hvs hv =>
          cases hfine with
          | app hnode hfine =>
              have hargs := forall₂_imp_mem hvs fun e he v hv => ih e he hv (hfine e he)
              obtain ⟨w, hw, hiff⟩ := residual_app hvs hv hargs
              rw [← hiff.mpr hnode]
              exact hw

theorem preserves_of_fine {e : Expr} (hv : Evaluates J m.whole m.now e v)
    (hfine : Throughout (m.NodeFine J) e) : m.Preserves J e :=
  ((residual_of_fine hv hfine).preserves_iff hv).mpr rfl

theorem throughout_preserves_iff {e : Expr} (hv : Evaluates J m.whole m.now e v) :
    Throughout (m.Preserves J) e ↔ Throughout (m.NodeFine J) e := by
  induction e using Expr.induction generalizing v with
  | lit w => exact ⟨fun _ => .lit trivial, fun _ => .lit rfl⟩
  | app op args ih =>
      have hwhole := hv
      cases hv with
      | @app _ _ vs _ hvs hv =>
          have hmem := fun e he => exists_of_forall₂ hvs (a := e) he
          constructor
          · intro hpres
            cases hpres with
            | app hpres hops =>
                have hfine : ∀ e ∈ args, Throughout (m.NodeFine J) e := by
                  intro e he
                  obtain ⟨u, hu⟩ := hmem e he
                  exact (ih e he hu).mp (hops e he)
                have hargs := forall₂_imp_mem hvs fun e he v hv => residual_of_fine hv (hfine e he)
                obtain ⟨w, hw, hiff⟩ := residual_app hvs hv hargs
                exact .app (hiff.mp ((hw.preserves_iff hwhole).mp hpres)) hfine
          · intro hfine
            refine .app (preserves_of_fine hwhole hfine) fun e he => ?_
            obtain ⟨u, hu⟩ := hmem e he
            cases hfine with
            | app _ hops => exact (ih e he hu).mpr (hops e he)

/-- Evaluating in two stages gives the value of the expression if there is no
exception in it, and the value of every part of it only then. -/
theorem evaluateTwice_iff {e : Expr} (hv : Evaluates J m.whole m.now e v) :
    (Throughout (m.NodeFine J) e → m.evaluateTwice J e = m.evaluateWhole J e)
      ∧ (Throughout (m.Preserves J) e ↔ Throughout (m.NodeFine J) e) :=
  ⟨preserves_of_fine hv, throughout_preserves_iff hv⟩

/-- Only `tag` is known, and `model` comes later. -/
def tagged : Split where
  known p := if p = js "tag" then some (some (.bool true)) else none
  rest p := if p = js "model" then some (.str (js "a")) else none
  now := none
  timed := false

/-- `["AND", ["PARAM", "tag"], ["NOT", ["PARAM", "other"]]]`. -/
theorem evaluateTwice_iff_tagged :
    let e := Expr.app .and [.ofParam (js "tag"), .app .not [.ofParam (js "other")]]
    (Throughout (tagged.NodeFine idleJs) e →
        tagged.evaluateTwice idleJs e = tagged.evaluateWhole idleJs e)
      ∧ (Throughout (tagged.Preserves idleJs) e ↔ Throughout (tagged.NodeFine idleJs) e) := by
  intro e
  refine @evaluateTwice_iff tagged idleJs none e ?_
  have hparam : ∀ p, Evaluates idleJs tagged.whole tagged.now (.ofParam p) (tagged.whole p) :=
    fun p => .app (.cons (.lit (some (.str p))) .nil) rfl
  exact .app (.cons (hparam _) (.cons (.app (.cons (hparam _) .nil) rfl) .nil)) (by decide +kernel)

/-- `["NOT", ["NOT", ["PARAM", "model"]]]` is true, but what the first stage
leaves of it is the parameter itself. -/
theorem evaluateTwice_double_negation :
    let e := Expr.app .not [.app .not [.ofParam (js "model")]]
    tagged.evaluateTwice idleJs e = .ok (.lit (some (.str (js "a"))))
      ∧ tagged.evaluateWhole idleJs e = .ok (.lit (some (.bool true)))
      ∧ ¬ tagged.Preserves idleJs e := by
  intro e
  have htwice : tagged.evaluateTwice idleJs e = .ok (.lit (some (.str (js "a")))) := by
    decide +kernel
  have hwhole : tagged.evaluateWhole idleJs e = .ok (.lit (some (.bool true))) := by
    decide +kernel
  refine ⟨htwice, hwhole, fun h => ?_⟩
  rw [Preserves, htwice, hwhole] at h
  cases h

end Split

end GenieAcs
