import GenieAcs.Synth

/-!
# Pagination

`paginate` splits what is left to fetch in two: the rows that come before the
first gap in what has been fetched, which are there already, and the rest. A
gap is a minterm of the region not fetched; `getCover` covers it and all rows
that come after some row of it in the order of the sort keys.
-/

namespace GenieAcs

/-- The sort keys with their directions, in the order of `Object.entries`. -/
abbrev SortKeys := List (JsString × ℤ)

namespace Methods

variable (E : Env) (self : Methods)

/-- The expression is `["PARAM", param]`. -/
def isParam (param : JsString) : Expr → Bool
  | .app .param args => decide (arg args 0 = .lit (some (.str param)))
  | _ => false

/-- The comparison, negated or not, bounds the parameter from the side the
rows of the sort order come from. -/
def boundsFrom (sort : ℤ) (op : CompareOp) (negate : Bool) : Bool :=
  match op with
  | .eq => !negate
  | .gt => if 0 < sort then !negate else negate
  | .lt => if 0 < sort then negate else !negate

/-- What one literal of a minterm adds to `cov` and to `nextCov`. -/
def coverLiteral (param : JsString) (sort : ℤ) (i : Nat) : SynthM (Minterm × Minterm) := do
  let Γ ← get
  match Γ.getClause (i / 4) with
  | some (.isNull operand) => do
      let lhs ← self.expression operand
      if !isParam param lhs then pure ([], [])
      else if sort < 0 ∧ i % 2 = 1 then pure ([i, Cover.flip i], [i])
      else pure ([], [i])
  | some (.compare lhs op rhs) => do
      let exp ← self.expression lhs
      if !isParam param exp then pure ([], [])
      else if i % 2 = 0 ∧ 0 < sort then pure ([], [])
      else
        let negate := decide (i % 4 = 1 ∨ i % 4 = 2)
        if sort ≠ 0 ∧ boundsFrom sort op negate then
          if 0 < sort then do
            let v ← self.getVar (.compare lhs .gt rhs)
            pure ([literal v 3], [i])
          else do
            let v ← self.getVar (.compare lhs .lt rhs)
            pure ([literal v 0], [i])
        else pure ([], [i])
  | _ => pure ([], [])

/-- The loop over the literals of a minterm. -/
def coverLiterals (param : JsString) (sort : ℤ) : Minterm → SynthM (Minterm × Minterm)
  | [] => pure ([], [])
  | i :: is => do
      let (cov, nextCov) ← self.coverLiteral param sort i
      let (cov', nextCov') ← coverLiterals param sort is
      pure (cov ++ cov', nextCov ++ nextCov')

/-- In an ascending order what comes after is not null. -/
def notNull (param : JsString) (sort : ℤ) : SynthM Minterm :=
  if 0 < sort then do
    let isNull ← self.getVar (.isNull (.exp (.ofParam param)))
    pure [literal isNull 2]
  else pure []

def getCover (minterm : Minterm) : SortKeys → SynthM Minterms
  | [] => pure [[]]
  | (param, sort) :: allSort => do
      let notNull ← self.notNull param sort
      let (cov, nextCov) ← self.coverLiterals param sort minterm
      let next ← getCover minterm allSort
      pure ((notNull ++ cov) :: next.map (nextCov ++ ·))

end Methods

variable (E : Env) (n : Nat)

def paginate (fetched toFetch : Expr) (sort : SortKeys) : Except JsError (Expr × Expr) := do
  let fetched ← normalize E.J fetched
  if !fetched.truthy then pure (Expr.ofBool false, toFetch)
  else do
    let toFetch ← normalize E.J toFetch
    if !toFetch.truthy then pure (Expr.ofBool false, toFetch)
    else do
      let synth1 ← fromExpression E.J (methods E n) fetched
      let synth2 ← fromExpression E.J (methods E n) toFetch
      let synthesis : SynthM (Expr × Expr) := do
        let expr1Minterms ← (methods E n).true' synth1
        let expr2 ← (methods E n).true' synth2
        let expr2MintermsC := E.M.complement expr2
        let dc ← (methods E n).getDcSet E (expr1Minterms ++ expr2MintermsC)
        let gaps ← (methods E n).sanitizeMinterms
          (E.M.complement (expr1Minterms ++ expr2MintermsC ++ dc))
        let covers ← gaps.mapM fun m => (methods E n).getCover m sort
        let cover := covers.flatten
        let minterms1 ← (methods E n).minimize E (E.M.complement (cover ++ expr2MintermsC)) []
        let minterms2 ← (methods E n).minimize E
          (E.M.complement (minterms1 ++ expr2MintermsC)) []
        let satisfied ← (methods E n).toExpression minterms1
        let diff ← (methods E n).toExpression minterms2
        pure (satisfied, diff)
      let (res, _) ← synthesis.run {}
      pure res

end GenieAcs
