import GenieAcs.Evaluates

/-!
# The residual of one node

The preconditions and arguments of presets are evaluated before any parameter
is known, and what is left of them is evaluated again in a session. `Split`
is an assignment of values cut into the part that is known the first time and
the rest; `evaluateTwice` is the evaluation in two stages.

At one node the first stage works on the residuals of the operands. `Leaves`
says what value its result has in the second stage, and `leaves_iff` that it
is the value of the node but for the exceptions of `OperandsFine`.
-/

namespace GenieAcs

/-! ## The two stages -/

/-- Values for the parameters and for the clock; `known` and, if `timed`, the
clock are there the first time. -/
structure Split where
  known : JsString → Option (Option Value)
  rest : Lookup
  now : Option ℚ
  timed : Bool

namespace Split

def whole (m : Split) : Lookup := fun p => (m.known p).getD (m.rest p)

def remaining (m : Split) : Lookup := fun p => if (m.known p).isSome then none else m.rest p

/-- The callback of the first stage; a parameter that is not known stays. -/
def substitute (m : Split) (J : Js) : Expr → Expr
  | .app .param args =>
      match arg args 0 with
      | .lit (some name) =>
          match m.known (name.toString J) with
          | some v => .lit v
          | none => .app .param args
      | _ => .app .param args
  | e => e

def early (m : Split) : Option ℚ := if m.timed then m.now else none

def evaluateKnown (m : Split) (J : Js) (e : Expr) : Except JsError Expr :=
  evaluate J e none m.early (m.substitute J)

def evaluateRest (m : Split) (J : Js) (e : Expr) : Except JsError Expr :=
  evaluate J e (some m.remaining) m.now id

def evaluateTwice (m : Split) (J : Js) (e : Expr) : Except JsError Expr := do
  let r ← m.evaluateKnown J e
  m.evaluateRest J r

def evaluateWhole (m : Split) (J : Js) (e : Expr) : Except JsError Expr :=
  evaluate J e (some m.whole) m.now id

/-- The two stages give what one evaluation gives. -/
def Preserves (m : Split) (J : Js) (e : Expr) : Prop :=
  m.evaluateTwice J e = m.evaluateWhole J e

/-- The first stage at one node. -/
def nodeKnown (m : Split) (J : Js) (op : Op) (args : List Expr) : Except JsError Expr :=
  evaluateNode J none m.early (m.substitute J (.app op args))

end Split

/-! ## One node

The residual of a node is right except in four cases: AND with a null takes an
operand that is still open for true, OR forgets a null, a double negation
gives back what it negates as it is, and a name computed from what is not
known yet may name a parameter that was. -/

namespace Split

variable (m : Split) (J : Js)

/-- Whether a node is none of the exceptions, given what the first stage made
of its operands and their values in the end. -/
def OperandsFine : Op → List Expr → List (Option Value) → Prop
  | .and, ss, vs =>
      Expr.null ∈ ss → ss.any Expr.isFalseLit = false → some false ∉ vs.map truth
  | .or, ss, vs =>
      Expr.null ∈ ss → ∀ s ss', orArgs ss = some (s :: ss') →
        ∃ v ∈ unsettled ss vs, truth v ≠ some false
  | .not, ss, _ =>
      ∀ s ss' v, arg ss 0 = .app .not (s :: ss') → m.evaluateRest J s = .ok (.lit v) →
        v = ofTruth (truth v)
  | .param, ss, vs =>
      (arg ss 0).isArray = true → ∀ name, vs.head? = some (some name) →
        (m.known (name.toString J)).getD none = none
  | _, _, _ => True

/-- None of the exceptions at the top of an expression. -/
def NodeFine : Expr → Prop
  | .lit _ => True
  | .app op args => ∀ ss vs, List.Forall₂ (fun e s => m.evaluateKnown J e = .ok s) args ss →
      List.Forall₂ (fun e v => m.evaluateWhole J e = .ok (.lit v)) args vs →
      m.OperandsFine J op ss vs

/-- The residual of a node and its value in the second stage. -/
def Leaves (op : Op) (ss : List Expr) (w : Option Value) : Prop :=
  ∃ r, m.nodeKnown J op ss = .ok r ∧ Evaluates J m.remaining m.now r w

variable {m J}

theorem Leaves.unique {op : Op} {ss : List Expr} {v w : Option Value} (hv : m.Leaves J op ss v)
    (hw : m.Leaves J op ss w) : v = w := by
  obtain ⟨r, hr, hv⟩ := hv
  obtain ⟨r', hr', hw⟩ := hw
  obtain rfl : r = r' := by simpa using hr.symm.trans hr'
  exact hv.unique hw

variable {ss : List Expr} {vs : List (Option Value)} {v : Option Value}

/-- Only parameters depend on which assignment is read. -/
theorem evaluateNode_obj {op : Op} (hop : op ≠ .param) (obj obj' : Lookup) (now : Option ℚ)
    (args : List Expr) : evaluateNode J (some obj) now (.app op args)
      = evaluateNode J (some obj') now (.app op args) := by
  cases op <;> first | rfl | exact absurd rfl hop

/-- A node that stays as it is is evaluated in the second stage. -/
theorem leaves_self {op : Op} (hop : op ≠ .param)
    (h : List.Forall₂ (Evaluates J m.remaining m.now) ss vs)
    (hv : evaluateNode J (some m.whole) m.now (.app op (vs.map .lit)) = .ok (.lit v))
    (hself : m.nodeKnown J op ss = .ok (.app op ss)) : m.Leaves J op ss v := by
  refine ⟨_, hself, .app h ?_⟩
  rw [← hv]
  exact evaluateNode_obj hop _ _ _ _

theorem leaves_lit {op : Op} (h : m.nodeKnown J op ss = .ok (.lit v)) : m.Leaves J op ss v :=
  ⟨_, h, .lit v⟩

theorem ofTruth_inj {t u : Option Bool} : ofTruth t = ofTruth u ↔ t = u := by
  constructor
  · intro h
    rw [← truth_ofTruth t, h, truth_ofTruth]
  · rintro rfl
    rfl

theorem leaves_and (h : List.Forall₂ (Evaluates J m.remaining m.now) ss vs) :
    m.Leaves J .and ss (ofTruth (if Expr.null ∈ ss ∧ ss.any Expr.isFalseLit = false then none
      else Kleene.all (vs.map truth))) := by
  cases hfalse : ss.any Expr.isFalseLit with
  | true =>
      rw [if_neg (by simp)]
      have hmem : some false ∈ vs.map truth := by
        obtain ⟨s, hs, hsf⟩ := List.any_eq_true.mp hfalse
        cases s with
        | lit v =>
            exact List.mem_map.mpr ⟨v, Evaluates.mem_values h hs, (isFalseLit_lit v).mp hsf⟩
        | app op as => cases hsf
      rw [Kleene.all_eq_false.mpr hmem]
      apply leaves_lit
      show Except.ok (evaluateAnd ss) = _
      rw [evaluateAnd, if_pos hfalse]
      rfl
  | false =>
      have hnode : m.nodeKnown J .and ss = .ok (evaluateAnd ss) := rfl
      rw [Leaves, hnode, evaluateAnd, if_neg (by simp [hfalse])]
      cases hargs : andArgs ss with
      | none =>
          rw [if_pos ⟨andArgs_eq_none.mp hargs, rfl⟩]
          exact ⟨_, rfl, .lit none⟩
      | some args =>
          have hnull : Expr.null ∉ ss := fun hn => by
            rw [andArgs_eq_none.mpr hn] at hargs
            cases hargs
          obtain ⟨ws, hws, hall⟩ := andArgs_values h hfalse hargs
          rw [if_neg fun hn => hnull hn.1, ← hall]
          match args, hws with
          | [], .nil => exact ⟨_, rfl, .lit (some (.bool true))⟩
          | [e], .cons (b := w) he .nil =>
              refine ⟨_, rfl, ?_⟩
              have hand := Evaluates.and (.cons he (.cons (.lit (some (.bool true))) .nil))
              simp only [List.map_cons, List.map_nil, truth_bool, Kleene.all_pair_true] at hand
              simp only [List.map_cons, List.map_nil, Kleene.all_singleton]
              exact hand
          | e :: e' :: es, hws => exact ⟨_, rfl, Evaluates.and hws⟩

theorem leaves_or (h : List.Forall₂ (Evaluates J m.remaining m.now) ss vs) :
    m.Leaves J .or ss (ofTruth (match orArgs ss with
      | none => some true
      | some [] => if Expr.null ∈ ss then none else some false
      | some (_ :: _) => Kleene.any ((unsettled ss vs).map truth))) := by
  have hnode : m.nodeKnown J .or ss = .ok (evaluateOr ss) := rfl
  rw [Leaves, hnode, evaluateOr]
  cases hargs : orArgs ss with
  | none => exact ⟨_, rfl, .lit (some (.bool true))⟩
  | some args =>
      obtain ⟨ws, hws, hany⟩ := orArgs_values h hargs
      cases hws with
      | nil =>
          have hnull : ss.any (decide <| · = Expr.null) = true ↔ Expr.null ∈ ss := by simp
          simp only [hnull]
          split_ifs
          · exact ⟨_, rfl, .lit none⟩
          · exact ⟨_, rfl, .lit (some (.bool false))⟩
      | @cons e w es ws he hrest =>
          cases es with
          | nil =>
              cases hrest
              refine ⟨_, rfl, ?_⟩
              have hor := Evaluates.or (.cons he (.cons (.lit (some (.bool false))) .nil))
              simp only [List.map_cons, List.map_nil, truth_bool, Kleene.any_pair_false] at hor
              simp only [← hany, List.map_cons, List.map_nil, Kleene.any_singleton]
              exact hor
          | cons e' es =>
              refine ⟨_, rfl, ?_⟩
              rw [← hany]
              exact Evaluates.or (.cons he hrest)

theorem evaluateNot_lit {args : List Expr} {a : Option Value} (h : arg args 0 = .lit a) :
    evaluateNot args = .lit (ofTruth (Kleene.neg (truth a))) := by
  rw [evaluateNot, h]
  cases a <;> rfl

theorem Leaves.fine {op : Op} (h : m.Leaves J op ss v) (hfine : m.OperandsFine J op ss vs) :
    ∃ w, m.Leaves J op ss w ∧ (w = v ↔ m.OperandsFine J op ss vs) :=
  ⟨v, h, fun _ => hfine, fun _ => rfl⟩

/-- NOT of a residual that is a negation gives back what was negated. -/
theorem leaves_not (h : List.Forall₂ (Evaluates J m.remaining m.now) ss vs)
    (hv : evaluateNode J (some m.whole) m.now (.app .not (vs.map .lit)) = .ok (.lit v)) :
    ∃ w, m.Leaves J .not ss w ∧ (w = v ↔ m.OperandsFine J .not ss vs) := by
  obtain ⟨a, ha, harg⟩ := Evaluates.arg_value h 0
  have hnode : m.nodeKnown J .not ss = .ok (evaluateNot ss) := rfl
  have hvalue : evaluateNot (vs.map .lit) = .lit v := Except.ok.inj hv
  rw [evaluateNot_lit harg] at hvalue
  have hva := Expr.lit.inj hvalue
  by_cases hdouble : ∃ y ys, arg ss 0 = .app .not (y :: ys)
  · obtain ⟨y, ys, hs⟩ := hdouble
    rw [evaluateNot, hs] at hnode
    rw [hs] at ha
    cases ha with
    | app hys hneg =>
        cases hys with
        | @cons _ w _ ws hy hys =>
            have hw : evaluateNot ((w :: ws).map .lit) = .lit a := Except.ok.inj hneg
            rw [evaluateNot_lit rfl] at hw
            rw [← Expr.lit.inj hw, truth_ofTruth, Kleene.neg_neg] at hva
            refine ⟨w, ⟨y, hnode, hy⟩, ?_⟩
            rw [← hva]
            constructor
            · intro hfine s ss' w' hs' hw'
              rw [hs] at hs'
              cases hs'
              have hww := hy.evaluate_eq.symm.trans hw'
              cases hww
              exact hfine
            · intro hfine
              exact hfine y ys w hs hy.evaluate_eq
  · have hfine : m.OperandsFine J .not ss vs := fun y ys _ hs => absurd ⟨y, ys, hs⟩ hdouble
    refine Leaves.fine ?_ hfine
    cases hs : arg ss 0 with
    | lit b =>
        rw [hs] at ha
        obtain rfl := Evaluates.lit_iff.mp ha
        rw [evaluateNot_lit hs, hva] at hnode
        exact leaves_lit hnode
    | app op as =>
        apply leaves_self Op.noConfusion h hv
        rw [hnode, evaluateNot, hs]
        split
        · rename_i heq
          cases heq
        · rename_i heq
          cases heq
        · rename_i heq
          rw [heq] at hs
          exact absurd ⟨_, _, hs⟩ hdouble
        · rfl

theorem evaluateNode_param (obj : Option Lookup) (now : Option ℚ) (args : List Expr) :
    evaluateNode J obj now (.app .param args) = match obj, arg args 0 with
      | _, .lit none => pure Expr.null
      | some obj, .lit (some name) => pure (.lit (obj (name.toString J)))
      | _, _ => pure (if arg args 0 = Expr.null then Expr.null else .app .param args) := rfl

theorem nodeKnown_param {name : Value} (h : arg ss 0 = .lit (some name)) :
    m.nodeKnown J .param ss = .ok (match m.known (name.toString J) with
      | some v => .lit v
      | none => .app .param ss) := by
  rw [nodeKnown, substitute, h]
  cases hknown : m.known (name.toString J) with
  | some v => simp only [hknown]; rfl
  | none =>
      simp only [hknown]
      rw [evaluateNode_param, h]
      simp only
      rw [if_neg (by simp [Expr.null])]
      rfl

/-- A name that has no value yet is looked up in the rest only. -/
theorem leaves_param (h : List.Forall₂ (Evaluates J m.remaining m.now) ss vs)
    (hv : evaluateNode J (some m.whole) m.now (.app .param (vs.map .lit)) = .ok (.lit v)) :
    ∃ w, m.Leaves J .param ss w ∧ (w = v ↔ m.OperandsFine J .param ss vs) := by
  obtain ⟨a, ha, harg⟩ := Evaluates.arg_value h 0
  have hlookup : ∀ obj : Lookup, evaluateNode J (some obj) m.now (.app .param (vs.map .lit))
      = .ok (.lit (a.bind fun name => obj (name.toString J))) := by
    intro obj
    rw [evaluateNode_param, harg]
    cases a <;> rfl
  rw [hlookup] at hv
  obtain rfl : (a.bind fun name => m.whole (name.toString J)) = v := by simpa using hv
  cases hs : arg ss 0 with
  | lit b =>
      rw [hs] at ha
      obtain rfl := Evaluates.lit_iff.mp ha
      apply Leaves.fine
      · cases a with
        | none =>
            apply leaves_lit
            rw [nodeKnown, substitute, hs]
            simp only
            rw [evaluateNode_param, hs]
            rfl
        | some name =>
            have hnode := @nodeKnown_param m J _ _ hs
            cases hknown : m.known (name.toString J) with
            | some x =>
                rw [hknown] at hnode
                have hx : m.whole (name.toString J) = x := by rw [whole, hknown]; rfl
                exact ⟨_, hnode, Evaluates.lit_iff.mpr hx⟩
            | none =>
                rw [hknown] at hnode
                refine ⟨_, hnode, .app h ?_⟩
                rw [hlookup]
                simp [remaining, whole, hknown]
      · intro harr
        rw [hs] at harr
        cases harr
  | app op as =>
      have hnode : m.nodeKnown J .param ss = .ok (.app .param ss) := by
        rw [nodeKnown, substitute, hs]
        simp only
        rw [evaluateNode_param, hs]
        simp only
        rw [if_neg (by simp [Expr.null])]
        rfl
      refine ⟨_, ⟨_, hnode, .app h (hlookup _)⟩, ?_⟩
      have hhead : vs.head? = some a := by
        cases h with
        | nil => cases hs
        | cons _ _ =>
            obtain rfl := Expr.lit.inj harg
            rfl
      rw [OperandsFine, hhead, hs]
      cases a with
      | none => simp
      | some name =>
          cases hknown : m.known (name.toString J) with
          | none => simp [remaining, whole, hknown, Expr.isArray]
          | some x => cases x <;> simp [remaining, whole, hknown, Expr.isArray]

/-! ### The operators without exceptions -/

/-- A node that stays, or is settled at once. -/
theorem leaves_strict {op : Op} (hop : op ≠ .param)
    (h : List.Forall₂ (Evaluates J m.remaining m.now) ss vs)
    (hv : evaluateNode J (some m.whole) m.now (.app op (vs.map .lit)) = .ok (.lit v))
    (hr : m.nodeKnown J op ss = .ok (.app op ss) ∨ m.nodeKnown J op ss = .ok (.lit v)) :
    m.Leaves J op ss v := by
  rcases hr with hself | hlit
  · exact leaves_self hop h hv hself
  · exact leaves_lit hlit

/-- The walk over the pairs stops at the first condition that is open. -/
theorem evaluateCase_residual (exp exp' : Expr)
    (h : List.Forall₂ (Evaluates J m.remaining m.now) ss vs) :
    evaluateCase exp ss = exp ∨ ∃ w, evaluateCase exp' (vs.map .lit) = .lit w
      ∧ Evaluates J m.remaining m.now (evaluateCase exp ss) w := by
  induction ss using evaluateCase.induct generalizing vs with
  | case1 w t rest hw =>
      left
      rw [evaluateCase, if_pos hw]
  | case2 w t rest hw htrue =>
      right
      cases h with
      | @cons _ a _ _ hcond h =>
          cases h with
          | @cons _ u _ _ ht _ =>
              cases w with
              | app op as => exact absurd rfl hw
              | lit w =>
                  obtain rfl := Evaluates.lit_iff.mp hcond
                  refine ⟨u, ?_, ?_⟩
                  · rw [List.map_cons, List.map_cons, evaluateCase, if_neg hw, if_pos htrue]
                  · rw [evaluateCase, if_neg hw, if_pos htrue]
                    exact ht
  | case3 w t rest hw hfalse ih =>
      cases h with
      | @cons _ a _ _ hcond h =>
          cases h with
          | cons ht hrest =>
              cases w with
              | app op as => exact absurd rfl hw
              | lit w =>
                  obtain rfl := Evaluates.lit_iff.mp hcond
                  rw [evaluateCase, if_neg hw, if_neg hfalse, List.map_cons, List.map_cons,
                    evaluateCase, if_neg hw, if_neg hfalse]
                  exact ih hrest
  | case4 w hw =>
      left
      rw [evaluateCase, if_pos hw]
  | case5 w hw =>
      right
      cases h with
      | cons hcond hnil =>
          cases hnil
          refine ⟨none, rfl, ?_⟩
          rw [evaluateCase, if_neg hw]
          exact .lit none
  | case6 =>
      cases h
      right
      exact ⟨none, rfl, .lit none⟩

theorem leaves_case (h : List.Forall₂ (Evaluates J m.remaining m.now) ss vs)
    (hv : evaluateNode J (some m.whole) m.now (.app .case (vs.map .lit)) = .ok (.lit v)) :
    m.Leaves J .case ss v := by
  have hnode : m.nodeKnown J .case ss = .ok (evaluateCase (.app .case ss) ss) := rfl
  have hvalue : evaluateCase (.app .case (vs.map .lit)) (vs.map .lit) = .lit v := Except.ok.inj hv
  rcases evaluateCase_residual (.app .case ss) (.app .case (vs.map .lit)) h with
    hself | ⟨w, hw, hleft⟩
  · rw [hself] at hnode
    exact leaves_self Op.noConfusion h hv hnode
  · rw [hvalue] at hw
    obtain rfl := Expr.lit.inj hw
    exact ⟨_, hnode, hleft⟩

theorem leaves_compare {op : Op} (hop : op.IsCompare)
    (h : List.Forall₂ (Evaluates J m.remaining m.now) ss vs)
    (hv : evaluateNode J (some m.whole) m.now (.app op (vs.map .lit)) = .ok (.lit v)) :
    m.Leaves J op ss v := by
  have hnode : ∀ obj now args,
      evaluateNode J obj now (.app op args) = .ok (evaluateCompare op args) := by
    intro obj now args
    cases hop <;> rfl
  have hsub : m.substitute J (.app op ss) = .app op ss := by cases hop <;> rfl
  apply leaves_strict (by rintro rfl; cases hop) h hv
  rw [nodeKnown, hsub, hnode]
  rw [hnode] at hv
  rcases evaluateCompare_residual op h with hself | hlit
  · exact Or.inl (congrArg Except.ok hself)
  · exact Or.inr ((congrArg Except.ok hlit).trans hv)

/-! ### Functions -/

/-- COALESCE: the first value that is not null. -/
def coalesceValue : List (Option Value) → Option Value
  | [] => none
  | none :: vs => coalesceValue vs
  | some v :: _ => some v

theorem coalesceArgs_lits (vs : List (Option Value)) :
    coalesceArgs (vs.map .lit) = match coalesceValue vs with
      | none => []
      | some v => [.lit (some v)] := by
  induction vs with
  | nil => rfl
  | cons v vs ih =>
      cases v with
      | none => exact ih
      | some v => rfl

theorem coalesceArgs_values {es : List Expr} {ws : List (Option Value)}
    (h : List.Forall₂ (Evaluates J m.remaining m.now) es ws) :
    ∃ ws', List.Forall₂ (Evaluates J m.remaining m.now) (coalesceArgs es) ws'
      ∧ coalesceValue ws' = coalesceValue ws := by
  induction h with
  | nil => exact ⟨[], .nil, rfl⟩
  | @cons e w es ws he hes ih =>
      obtain ⟨ws', hws', hvalue⟩ := ih
      cases e with
      | lit w' =>
          obtain rfl := Evaluates.lit_iff.mp he
          cases w with
          | none => exact ⟨ws', hws', hvalue⟩
          | some w => exact ⟨[some w], .cons he .nil, rfl⟩
      | app op as =>
          refine ⟨w :: ws', .cons he hws', ?_⟩
          cases w with
          | none => exact hvalue
          | some w => rfl

theorem evaluateFunc_coalesce {args : List Expr} {ws : List (Option Value)}
    (hname : arg args 0 = .lit (some (.str (js "COALESCE")))) (htail : args.tail = ws.map .lit) :
    evaluateFunc J args = .lit (coalesceValue ws) := by
  rw [evaluateFunc, if_pos hname, htail, coalesceArgs_lits]
  cases coalesceValue ws <;> rfl

/-- The name of the clock is no name that `evaluateCallback` knows. -/
theorem evaluateFunc_now {args : List Expr} (hname : arg args 0 = .lit (some (.str (js "NOW")))) :
    evaluateFunc J args = .app .func args := by
  rw [evaluateFunc, hname]
  rfl

theorem evaluateNode_func {obj : Option Lookup} {now : Option ℚ} {args : List Expr}
    (hname : arg args 0 ≠ .lit (some (.str (js "NOW")))) :
    evaluateNode J obj now (.app .func args) = .ok (evaluateFunc J args) := by
  cases now with
  | none => rfl
  | some t =>
      rw [evaluateNode, if_neg fun h => hname h.1]
      rfl

/-- The digits ROUND is given, zero by default. -/
def roundDigits (args : List Expr) : Expr :=
  if args.length > 2 then arg args 2 else .lit (some (.num 0))

theorem roundDigits_settled (h : List.Forall₂ (Evaluates J m.remaining m.now) ss vs) :
    ∃ p, roundDigits (vs.map .lit) = .lit p ∧ ∀ b, roundDigits ss = .lit b → b = p := by
  unfold roundDigits
  rw [List.length_map, h.length_eq]
  split_ifs with hlen
  · exact arg_settled h 2
  · exact ⟨_, rfl, fun b hb => (Expr.lit.inj hb).symm⟩

/-- The functions that need all they are given. -/
theorem evaluateFunc_residual (h : List.Forall₂ (Evaluates J m.remaining m.now) ss vs)
    (hname : arg ss 0 ≠ .lit (some (.str (js "COALESCE")))) :
    evaluateFunc J ss = .app .func ss ∨ evaluateFunc J ss = evaluateFunc J (vs.map .lit) := by
  obtain ⟨f, hf, hsf⟩ := arg_settled h 0
  obtain ⟨a, ha, hsa⟩ := arg_settled h 1
  obtain ⟨p, hp, hsp⟩ := roundDigits_settled h
  rw [evaluateFunc, if_neg hname]
  cases h0 : arg ss 0 with
  | app op as =>
      left
      rw [if_neg Expr.noConfusion, if_neg Expr.noConfusion, if_neg Expr.noConfusion]
  | lit f' =>
      obtain rfl := hsf f' h0
      rw [h0] at hname
      rw [evaluateFunc, hf, if_neg hname, ha]
      by_cases hupper : Expr.lit f' = .lit (some (.str (js "UPPER")))
      · rw [if_pos hupper, if_pos hupper]
        cases h1 : arg ss 1 with
        | lit a' =>
            obtain rfl := hsa a' h1
            right
            cases a' <;> rfl
        | app op as =>
            left
            rfl
      rw [if_neg hupper, if_neg hupper]
      by_cases hlower : Expr.lit f' = .lit (some (.str (js "LOWER")))
      · rw [if_pos hlower, if_pos hlower]
        cases h1 : arg ss 1 with
        | lit a' =>
            obtain rfl := hsa a' h1
            right
            cases a' <;> rfl
        | app op as =>
            left
            rfl
      rw [if_neg hlower, if_neg hlower]
      by_cases hround : Expr.lit f' = .lit (some (.str (js "ROUND")))
      · rw [if_pos hround, if_pos hround]
        show strictPair (.app .func ss) (fun n p => .lit (some (J.round n p))) (arg ss 1)
            (roundDigits ss) = _
          ∨ strictPair (.app .func ss) (fun n p => .lit (some (J.round n p))) (arg ss 1)
            (roundDigits ss) = strictPair (.app .func (vs.map .lit))
              (fun n p => .lit (some (J.round n p))) (.lit a) (roundDigits (vs.map .lit))
        rw [hp]
        exact strictPair_residual _ _ _ hsa hsp
      · left
        rw [if_neg hround]

theorem evaluateNode_now {args : List Expr} (hname : arg args 0 = .lit (some (.str (js "NOW"))))
    (obj : Option Lookup) (now : Option ℚ) : evaluateNode J obj now (.app .func args)
      = .ok (if now.getD 0 = 0 then .app .func args else .lit (now.map .num)) := by
  cases now with
  | none =>
      show Except.ok (evaluateFunc J args) = _
      rw [evaluateFunc_now hname]
      rfl
  | some t =>
      by_cases ht : t = 0
      · rw [evaluateNode, if_neg (by simp [ht])]
        show Except.ok (evaluateFunc J args) = _
        rw [evaluateFunc_now hname, ht]
        rfl
      · rw [evaluateNode, if_pos ⟨hname, ht⟩, if_neg (by simpa using ht)]
        rfl

/-- The residual of COALESCE keeps the arguments up to the first literal. -/
theorem leaves_coalesce (hname : arg ss 0 = .lit (some (.str (js "COALESCE"))))
    (h : List.Forall₂ (Evaluates J m.remaining m.now) ss vs)
    (hv : evaluateFunc J (vs.map .lit) = .lit v) : m.Leaves J .func ss v := by
  have hnode : m.nodeKnown J .func ss = .ok (evaluateFunc J ss) := by
    apply evaluateNode_func
    rw [hname]
    decide
  cases h with
  | nil => cases hname
  | @cons s u ss vs hs hss =>
      obtain rfl : s = .lit (some (.str (js "COALESCE"))) := hname
      obtain rfl := Evaluates.lit_iff.mp hs
      rw [evaluateFunc_coalesce rfl rfl] at hv
      obtain rfl := Expr.lit.inj hv
      obtain ⟨ws, hws, hvalue⟩ := coalesceArgs_values hss
      have happ : ∀ es, List.Forall₂ (Evaluates J m.remaining m.now) es ws →
          Evaluates J m.remaining m.now
            (.app .func (.lit (some (.str (js "COALESCE"))) :: es)) (coalesceValue vs) := by
        intro es hes
        refine .app (.cons (.lit _) hes) ?_
        rw [evaluateNode_func (by simp [arg, js]), evaluateFunc_coalesce rfl rfl, hvalue]
      have hname' : arg (.lit (some (.str (js "COALESCE"))) :: ss) 0
          = .lit (some (.str (js "COALESCE"))) := rfl
      rw [Leaves, hnode, evaluateFunc, if_pos hname', List.tail_cons]
      generalize coalesceArgs ss = es at hws
      cases hws with
      | nil => exact ⟨_, rfl, Evaluates.lit_iff.mpr hvalue.symm⟩
      | @cons e w es ws he hrest =>
          cases es with
          | nil =>
              cases hrest
              refine ⟨e, rfl, ?_⟩
              rw [← hvalue]
              cases w <;> exact he
          | cons e' es => exact ⟨_, rfl, happ _ (.cons he hrest)⟩

theorem leaves_func (h : List.Forall₂ (Evaluates J m.remaining m.now) ss vs)
    (hv : evaluateNode J (some m.whole) m.now (.app .func (vs.map .lit)) = .ok (.lit v)) :
    m.Leaves J .func ss v := by
  obtain ⟨f, hf, hsf⟩ := arg_settled h 0
  by_cases hnow : arg ss 0 = .lit (some (.str (js "NOW")))
  · -- the clock stays unless it is known and not zero, and then it is the same
    obtain rfl := hsf _ hnow
    rw [evaluateNode_now hf] at hv
    apply leaves_strict Op.noConfusion h (by rw [evaluateNode_now hf, hv])
    show evaluateNode J none m.early (.app .func ss) = _
      ∨ evaluateNode J none m.early (.app .func ss) = _
    rw [evaluateNode_now hnow]
    cases htimed : m.timed with
    | false =>
        left
        rw [early, htimed]
        rfl
    | true =>
        have hearly : m.early = m.now := by rw [early, htimed, if_pos rfl]
        rw [hearly]
        split_ifs at hv ⊢ with ht
        · exact Or.inl rfl
        · exact Or.inr hv
  · have hnode : m.nodeKnown J .func ss = .ok (evaluateFunc J ss) := evaluateNode_func hnow
    by_cases hco : arg ss 0 = .lit (some (.str (js "COALESCE")))
    · have hvalue : evaluateFunc J (vs.map .lit) = .lit v := by
        rw [evaluateNode_func (by rw [hf, ← hsf _ hco]; decide)] at hv
        exact Except.ok.inj hv
      exact leaves_coalesce hco h hvalue
    · apply leaves_strict Op.noConfusion h hv
      rw [hnode]
      cases h0 : arg ss 0 with
      | app op as =>
          left
          rw [evaluateFunc, h0, if_neg Expr.noConfusion, if_neg Expr.noConfusion,
            if_neg Expr.noConfusion, if_neg Expr.noConfusion]
      | lit f' =>
          obtain rfl := hsf f' h0
          rw [h0, ← hf] at hnow
          rw [evaluateNode_func hnow] at hv
          rcases evaluateFunc_residual h hco with hself | hlit
          · exact Or.inl (congrArg Except.ok hself)
          · exact Or.inr ((congrArg Except.ok hlit).trans hv)

/-! ### All operators -/

theorem leaves_reduce {op : Op} {f : Value → Value → Nat → Option Expr}
    {step : Option Value → Option Value → Option Value} (hf : Folds f step)
    (hop : ∀ obj now args, evaluateNode J obj now (.app op args) = .ok (reduce op (reduceWith f) args))
    (hsub : m.substitute J (.app op ss) = .app op ss)
    (h : List.Forall₂ (Evaluates J m.remaining m.now) ss vs)
    (hv : evaluateNode J (some m.whole) m.now (.app op (vs.map .lit)) = .ok (.lit v)) :
    m.Leaves J op ss v := by
  refine ⟨reduce op (reduceWith f) ss, ?_, ?_⟩
  · rw [nodeKnown, hsub, hop]
  · rw [hop] at hv
    exact hf.reduce_residual (hop _ _) h (Except.ok.inj hv)

/-- The residual of a node has the value of the node if and only if the node
is none of the exceptions. -/
theorem leaves_iff {op : Op} (h : List.Forall₂ (Evaluates J m.remaining m.now) ss vs)
    (hv : evaluateNode J (some m.whole) m.now (.app op (vs.map .lit)) = .ok (.lit v)) :
    ∃ w, m.Leaves J op ss w ∧ (w = v ↔ m.OperandsFine J op ss vs) := by
  cases op with
  | and =>
      refine ⟨_, leaves_and h, ?_⟩
      have hvalue : evaluateAnd (vs.map .lit) = .lit v := Except.ok.inj hv
      rw [evaluateAnd_lits] at hvalue
      rw [← Expr.lit.inj hvalue, ofTruth_inj, OperandsFine]
      by_cases hcase : Expr.null ∈ ss ∧ ss.any Expr.isFalseLit = false
      · have hnone : none ∈ vs.map truth := none_mem_truth.mpr (Evaluates.mem_values h hcase.1)
        rw [if_pos hcase, eq_comm, Kleene.all_eq_none]
        simp [hcase, hnone]
      · rw [if_neg hcase]
        exact ⟨fun _ hnull hfalse => absurd ⟨hnull, hfalse⟩ hcase, fun _ => rfl⟩
  | or =>
      refine ⟨_, leaves_or h, ?_⟩
      have hvalue : evaluateOr (vs.map .lit) = .lit v := Except.ok.inj hv
      rw [evaluateOr_lits] at hvalue
      rw [← Expr.lit.inj hvalue, ofTruth_inj, OperandsFine]
      cases hargs : orArgs ss with
      | none =>
          obtain ⟨u, hu, ht⟩ := orArgs_eq_none hargs
          have hmem : some true ∈ vs.map truth :=
            List.mem_map.mpr ⟨u, Evaluates.mem_values h hu, ht⟩
          exact ⟨fun _ _ s ss' hs => (nomatch hs), fun _ => (Kleene.any_eq_true.mpr hmem).symm⟩
      | some args =>
          obtain ⟨ws, hws, hany⟩ := orArgs_values h hargs
          rw [any_values h hargs]
          cases args with
          | nil =>
              cases hws
              rw [← hany]
              refine ⟨fun _ _ s ss' hs => (nomatch hs), fun _ => ?_⟩
              exact (Kleene.any_false_pair _).symm
          | cons s args =>
              by_cases hnull : Expr.null ∈ ss
              · rw [if_pos hnull]
                have hopen : Kleene.any ((unsettled ss vs).map truth) ≠ some false
                    ↔ ∃ v ∈ unsettled ss vs, truth v ≠ some false := by
                  rw [Ne, Kleene.any_eq_false]
                  simp
                have hpair : ∀ t, t = Kleene.any [t, none] ↔ t ≠ some false := by
                  intro t
                  rcases t with _ | _ | _ <;> decide
                show Kleene.any ((unsettled ss vs).map truth) = _ ↔ _
                rw [hpair, hopen]
                exact ⟨fun hex _ _ _ _ => hex, fun hfine => hfine hnull s args rfl⟩
              · rw [if_neg hnull, Kleene.any_pair_false]
                exact ⟨fun _ hn => absurd hn hnull, fun _ => rfl⟩
  | not => exact leaves_not h hv
  | param => exact leaves_param h hv
  | eq => exact (leaves_compare .eq h hv).fine trivial
  | ne => exact (leaves_compare .ne h hv).fine trivial
  | gt => exact (leaves_compare .gt h hv).fine trivial
  | ge => exact (leaves_compare .ge h hv).fine trivial
  | lt => exact (leaves_compare .lt h hv).fine trivial
  | le => exact (leaves_compare .le h hv).fine trivial
  | like =>
      refine (leaves_strict Op.noConfusion h hv ?_).fine trivial
      exact (evaluateLike_residual .like false h).imp_right fun hlit => hlit.trans hv
  | notLike =>
      refine (leaves_strict Op.noConfusion h hv ?_).fine trivial
      exact (evaluateLike_residual .notLike true h).imp_right fun hlit => hlit.trans hv
  | isNull =>
      refine (leaves_strict Op.noConfusion h hv ?_).fine trivial
      exact (isNullTest_residual true .isNull h).imp (congrArg Except.ok)
        fun hlit => (congrArg Except.ok hlit).trans hv
  | isNotNull =>
      refine (leaves_strict Op.noConfusion h hv ?_).fine trivial
      exact (isNullTest_residual false .isNotNull h).imp (congrArg Except.ok)
        fun hlit => (congrArg Except.ok hlit).trans hv
  | add => exact (leaves_reduce (folds_add J) (fun _ _ _ => rfl) rfl h hv).fine trivial
  | sub => exact (leaves_reduce (folds_sub J) (fun _ _ _ => rfl) rfl h hv).fine trivial
  | mul => exact (leaves_reduce (folds_mul J) (fun _ _ _ => rfl) rfl h hv).fine trivial
  | div => exact (leaves_reduce (folds_div J) (fun _ _ _ => rfl) rfl h hv).fine trivial
  | mod => exact (leaves_reduce (folds_mod J) (fun _ _ _ => rfl) rfl h hv).fine trivial
  | concat => exact (leaves_reduce (folds_concat J) (fun _ _ _ => rfl) rfl h hv).fine trivial
  | case => exact (leaves_case h hv).fine trivial
  | func => exact (leaves_func h hv).fine trivial

end Split

end GenieAcs
