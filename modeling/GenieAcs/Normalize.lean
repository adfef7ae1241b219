import GenieAcs.Expression
import Mathlib.Data.List.Sort
import Mathlib.Data.Int.GCD

/-!
# Normal forms of expressions

`normalize` walks an expression from the leaves up. Arithmetic turns into
polynomials over the subexpressions that are not arithmetic, a comparison
with a polynomial or a number is brought into the form polynomial against
constant, and CASE is moved out of every other operator.

A normalised argument is an expression, a polynomial, or a CASE whose results
are expressions or polynomials; CASE is never nested in another operator or in
a result. A polynomial that ends up inside a condition is an object no later
step looks into, and counts as true there.
-/

namespace GenieAcs

/-! ## JSON texts -/

def Op.name : Op → JsString
  | .and => js "AND"
  | .or => js "OR"
  | .not => js "NOT"
  | .eq => js "="
  | .ne => js "<>"
  | .gt => js ">"
  | .ge => js ">="
  | .lt => js "<"
  | .le => js "<="
  | .like => js "LIKE"
  | .notLike => js "NOT LIKE"
  | .isNull => js "IS NULL"
  | .isNotNull => js "IS NOT NULL"
  | .add => js "+"
  | .sub => js "-"
  | .mul => js "*"
  | .div => js "/"
  | .mod => js "%"
  | .concat => js "||"
  | .case => js "CASE"
  | .func => js "FUNC"
  | .param => js "PARAM"

def hexDigit (n : Nat) : Nat := if n < 10 then '0'.toNat + n else 'a'.toNat + (n - 10)

/-- `\uXXXX` for a code unit. -/
def unicodeEscape (c : Nat) : JsString :=
  js "\\u" ++ [hexDigit (c / 4096 % 16), hexDigit (c / 256 % 16), hexDigit (c / 16 % 16),
    hexDigit (c % 16)]

def isHighSurrogate (c : Nat) : Bool := decide (0xD800 ≤ c ∧ c < 0xDC00)

def isLowSurrogate (c : Nat) : Bool := decide (0xDC00 ≤ c ∧ c < 0xE000)

/-- How `JSON.stringify` writes one code unit that is no surrogate. -/
def jsonUnit (c : Nat) : JsString :=
  if c = '"'.toNat then js "\\\""
  else if c = '\\'.toNat then js "\\\\"
  else if c = 8 then js "\\b"
  else if c = 12 then js "\\f"
  else if c = 10 then js "\\n"
  else if c = 13 then js "\\r"
  else if c = 9 then js "\\t"
  else if c < 32 then unicodeEscape c
  else [c]

/-- The body of a JSON string; surrogates without a partner are escaped. -/
def jsonUnits : JsString → JsString
  | [] => []
  | [c] => if isHighSurrogate c ∨ isLowSurrogate c then unicodeEscape c else jsonUnit c
  | c :: d :: cs =>
      if isHighSurrogate c then
        if isLowSurrogate d then c :: d :: jsonUnits cs
        else unicodeEscape c ++ jsonUnits (d :: cs)
      else if isLowSurrogate c then unicodeEscape c ++ jsonUnits (d :: cs)
      else jsonUnit c ++ jsonUnits (d :: cs)

def jsonString (s : JsString) : JsString := js "\"" ++ jsonUnits s ++ js "\""

def jsonValue (J : Js) : Option Value → JsString
  | none => js "null"
  | some (.bool true) => js "true"
  | some (.bool false) => js "false"
  | some (.num q) => J.numberToString q
  | some (.str s) => jsonString s

mutual

/-- `JSON.stringify` of an expression. -/
def json (J : Js) : Expr → JsString
  | .lit v => jsonValue J v
  | .app op args => js "[" ++ jsonString op.name ++ jsonArgs J args ++ js "]"

def jsonArgs (J : Js) : List Expr → JsString
  | [] => []
  | e :: es => js "," ++ json J e ++ jsonArgs J es

end

/-! ## Indeterminates -/

/-- A product of powers: the keys in order, each with its exponent. -/
abbrev Indeterminates := List (Expr × ℤ)

namespace Indeterminates

def reciprocal (a : Indeterminates) : Indeterminates := a.map fun (k, w) => (k, -w)

/-- The order of the keys: longer texts first, then by text. -/
def keyBefore (J : Js) (a b : Expr) : Prop :=
  let a := json J a
  let b := json J b
  if a.length ≠ b.length then b.length < a.length else a ≤ b

instance (J : Js) (a b : Expr) : Decidable (keyBefore J a b) := by
  unfold keyBefore
  infer_instance

/-- Multiplying by one power: exponents add up, and an exponent of 0 goes. -/
def mulPower (a : Indeterminates) (k : Expr) (w : ℤ) : Indeterminates :=
  match a with
  | [] => [(k, w)]
  | (k', w') :: rest =>
      if k' = k then
        if w' + w = 0 then rest else (k', w' + w) :: rest
      else (k', w') :: mulPower rest k w

def multiply (J : Js) (a b : Indeterminates) : Indeterminates :=
  (b.foldl (fun res kw => mulPower res kw.1 kw.2) a).insertionSort
    fun x y => keyBefore J x.1 y.1

/-- The loop of `compare` over products with equally many keys. -/
def compareKeys (J : Js) : Indeterminates → Indeterminates → Ordering
  | (k1, w1) :: as, (k2, w2) :: bs =>
      if w1 ≠ w2 then (if w2 < w1 then .lt else .gt)
      else if (json J k2).length < (json J k1).length then .lt
      else if (json J k1).length < (json J k2).length then .gt
      else if json J k2 < json J k1 then .gt
      else if json J k1 < json J k2 then .lt
      else compareKeys J as bs
  | _, _ => .eq

def compare (J : Js) (a b : Indeterminates) : Ordering :=
  if b.length < a.length then .lt
  else if a.length < b.length then .gt
  else compareKeys J a b

end Indeterminates

/-! ## Polynomials -/

structure Term where
  indeterminates : Indeterminates
  coefficientNumerator : ℤ
  coefficientDenominator : ℤ

def findGcd (a b : ℤ) : ℤ :=
  if b = 0 then a else findGcd b (a.tmod b)
termination_by b.natAbs
decreasing_by
  rw [Int.natAbs_tmod]
  exact Nat.mod_lt _ (Int.natAbs_pos.mpr ‹_›)

/-- Division of big integers. -/
def bigDiv (a b : ℤ) : Except JsError ℤ :=
  if b = 0 then throw .rangeError else pure (a.tdiv b)

/-- A term with its fraction reduced. -/
def reducedTerm (i : Indeterminates) (numerator denominator : ℤ) : Except JsError Term := do
  let gcd := findGcd numerator denominator
  let n ← bigDiv numerator gcd
  let d ← bigDiv denominator gcd
  pure ⟨i, n, d⟩

abbrev Polynomial := List Term

namespace Polynomial

/-- The loop of `simplifyTerms` over the sorted terms: a term like the one
before it takes that one's coefficient over, which becomes 0. -/
def mergeTerms (J : Js) : Term → List Term → Except JsError (List Term)
  | t, [] => pure [t]
  | t1, t2 :: rest =>
      if Indeterminates.compare J t1.indeterminates t2.indeterminates = .eq then do
        let t ← reducedTerm t2.indeterminates
          (t1.coefficientNumerator * t2.coefficientDenominator
            + t2.coefficientNumerator * t1.coefficientDenominator)
          (t1.coefficientDenominator * t2.coefficientDenominator)
        let ts ← mergeTerms J t rest
        pure ({ t1 with coefficientNumerator := 0 } :: ts)
      else do
        let ts ← mergeTerms J t2 rest
        pure (t1 :: ts)

/-- The order terms are sorted in. -/
def before (J : Js) (a b : Term) : Prop :=
  Indeterminates.compare J a.indeterminates b.indeterminates ≠ .gt

instance (J : Js) (a b : Term) : Decidable (before J a b) := by
  unfold before
  infer_instance

def simplifyTerms (J : Js) (terms : List Term) : Except JsError (List Term) :=
  match terms.insertionSort (before J) with
  | [] => pure []
  | t :: ts => do
      let ts ← mergeTerms J t ts
      pure (ts.filter fun t => t.coefficientNumerator ≠ 0)

def fromIndeterminate (e : Expr) : Polynomial := [⟨[(e, 1)], 1, 1⟩]

/-- The integer part takes the sign, and the binary fraction is added to it
as it is. -/
def fromConstant (constant : ℚ) : Polynomial :=
  let int : ℤ := constant.num.natAbs / constant.den
  let numerator := if constant < 0 then -int else int
  let frac : ℤ := constant.num.natAbs % constant.den
  if constant.den = 1 then [⟨[], numerator, 1⟩]
  else [⟨[], numerator * constant.den + frac, constant.den⟩]

def negation (p : Polynomial) : Polynomial :=
  p.map fun t => { t with coefficientNumerator := t.coefficientNumerator * -1 }

def reciprocal (p : Polynomial) : Polynomial :=
  p.map fun t =>
    ⟨t.indeterminates.reciprocal, t.coefficientDenominator, t.coefficientNumerator⟩

def constant (p : Polynomial) : Polynomial := p.filter fun t => t.indeterminates.isEmpty

def add (J : Js) (p q : Polynomial) : Except JsError Polynomial := simplifyTerms J (p ++ q)

def subtract (J : Js) (p q : Polynomial) : Except JsError Polynomial := add J p q.negation

def multiply (J : Js) (p q : Polynomial) : Except JsError Polynomial := do
  let terms ← p.mapM fun t1 => q.mapM fun t2 =>
    reducedTerm (Indeterminates.multiply J t1.indeterminates t2.indeterminates)
      (t1.coefficientNumerator * t2.coefficientNumerator)
      (t1.coefficientDenominator * t2.coefficientDenominator)
  simplifyTerms J terms.flatten

def divide (J : Js) (p q : Polynomial) : Except JsError Polynomial := multiply J p q.reciprocal

def additiveIdentity : Polynomial := fromConstant 0

def multiplicativeIdentity : Polynomial := fromConstant 1

/-- The factors of a power. -/
def powerFactors (kw : Expr × ℤ) : List Expr :=
  List.replicate kw.2.natAbs
    (if 0 < kw.2 then kw.1 else .app .div [.lit (some (.num 1)), kw.1])

def termExpression (t : Term) : Except JsError Expr :=
  if t.coefficientDenominator = 0 then throw .syntaxError
  else
    let coefficient : ℚ := t.coefficientNumerator / t.coefficientDenominator
    match t.indeterminates with
    | [] => pure (.lit (some (.num coefficient)))
    | is =>
        let factors := is.flatMap powerFactors
        let factors :=
          if coefficient ≠ 1 then factors ++ [.lit (some (.num coefficient))] else factors
        match factors with
        | [e] => pure e
        | es => pure (.app .mul es)

/-- `JSON.parse(p.toString())`; a coefficient that is no number does not parse. -/
def toExpression (p : Polynomial) : Except JsError Expr := do
  let summands ← p.mapM termExpression
  match summands with
  | [] => pure (.lit (some (.num 0)))
  | [e] => pure e
  | es => pure (.app .add es)

end Polynomial

/-! ## `normalizeCallback` -/

/-- A normalised expression that is no CASE. -/
inductive Arm where
  | expr (e : Expr)
  | poly (p : Polynomial)

/-- A normalised expression: conditions and results, if it is a CASE. -/
inductive NExpr where
  | arm (a : Arm)
  | case (arms : List (Expr × Arm))

/-- `a == null`. -/
def Arm.isNull : Arm → Bool
  | .expr (.lit none) => true
  | _ => false

/-- Polynomial expressions are restored. -/
def Arm.restore : Arm → Except JsError Expr
  | .expr e => pure e
  | .poly p => p.toExpression

def toPolynomial (J : Js) : Arm → Option Polynomial
  | .poly p => some p
  | .expr (.lit none) => none
  | .expr (.lit (some v)) => some (Polynomial.fromConstant (v.toNumber J))
  | .expr e => some (Polynomial.fromIndeterminate e)

/-- The arguments of an arithmetic operator; `none` when one of them is null. -/
def toPolynomials (J : Js) (args : List Arm) : Option (List Polynomial) :=
  args.mapM (toPolynomial J)

def swappedOp : Op → Op
  | .gt => .lt
  | .ge => .le
  | .lt => .gt
  | .le => .ge
  | op => op

/-- The polynomial of a side of a comparison that is a polynomial or a number. -/
def polynomialSide : Arm → Option Polynomial
  | .poly p => some p
  | .expr (.lit (some (.num q))) => some (Polynomial.fromConstant q)
  | .expr _ => none

/-- The other side of such a comparison. -/
def indeterminateSide : Arm → Polynomial
  | .poly p => p
  | .expr e => Polynomial.fromIndeterminate e

/-- Comparison of two number literals. -/
def compareConstants (op : Op) : Expr → Expr → Except JsError Expr
  | .lit (some (.num p)), .lit (some (.num q)) =>
      pure (Expr.ofBool (op.holds (compareLt p q)))
  | _, _ => throw .typeError

/-- Both sides as polynomials: everything but constants to the left, and the
coefficient of the first term made 1. The result is the operator and the two
sides, or the literal the comparison comes down to. -/
def compareSides (J : Js) (op : Op) (lhs rhs : Polynomial) :
    Except JsError (Expr ⊕ Op × Polynomial × Polynomial) := do
  let lhs ← lhs.subtract J rhs
  let rhs := lhs.constant.negation
  let lhs ← lhs.add J rhs
  match lhs with
  | [] =>
      let l ← lhs.toExpression
      let r ← rhs.toExpression
      let e ← compareConstants op l r
      pure (.inl e)
  | t :: _ =>
      let n := t.coefficientNumerator
      let d := t.coefficientDenominator
      let flipped := decide (n < 0 ∨ d < 0)
      let lhs ← lhs.multiply J [⟨[], d, n⟩]
      let rhs ← rhs.multiply J [⟨[], d, n⟩]
      match lhs with
      | [] => throw .typeError
      | t :: _ =>
          let first := if (t.indeterminates.map (·.2)).headD 0 < 0 then -1 else 0
          let invert : ℤ := first + (lhs.flatMap fun t => t.indeterminates.map (·.2)).sum
          let op' := if flipped = true then swappedOp op else op
          if invert < 0 then pure (.inr (swappedOp op', lhs.reciprocal, rhs.reciprocal))
          else pure (.inr (op', lhs, rhs))

/-- The last part of `normalizeCallback`: polynomials restored, and the result
simplified. -/
def restoreAndEvaluate (J : Js) (op : Op) (args : List Arm) : Except JsError Arm := do
  let args ← args.mapM Arm.restore
  let e ← evaluateCallback J op args
  pure (.expr e)

def normalizeCompare (J : Js) (op : Op) (args : List Arm) : Except JsError Arm :=
  let a := args.getD 0 (.expr Expr.null)
  let b := args.getD 1 (.expr Expr.null)
  if a.isNull ∨ b.isNull then pure (.expr Expr.null)
  else if (polynomialSide a).isSome ∨ (polynomialSide b).isSome then do
    let lhs := (polynomialSide a).getD (indeterminateSide a)
    let rhs := (polynomialSide b).getD (indeterminateSide b)
    match ← compareSides J op lhs rhs with
    | .inl e => pure (.expr e)
    | .inr (op, lhs, rhs) => restoreAndEvaluate J op [.poly lhs, .poly rhs]
  else restoreAndEvaluate J op args

/-- Arithmetic: the operation folded over the arguments, which must not be null. -/
def normalizeArithmetic (J : Js) (f : Polynomial → Polynomial → Except JsError Polynomial)
    (init : Option Polynomial) (args : List Arm) : Except JsError Arm :=
  match toPolynomials J args with
  | none => pure (.expr Expr.null)
  | some ps =>
      match init, ps with
      | some p, ps => do
          let p ← ps.foldlM f p
          pure (.poly p)
      | none, p :: ps => do
          let p ← ps.foldlM f p
          pure (.poly p)
      | none, [] => throw .typeError

/-- `normalizeCallback` of an operator none of whose arguments is a CASE. -/
def normalizePlain (J : Js) (op : Op) (args : List Arm) : Except JsError Arm :=
  match op with
  | .add => normalizeArithmetic J (Polynomial.add J) (some Polynomial.additiveIdentity) args
  | .mul =>
      normalizeArithmetic J (Polynomial.multiply J) (some Polynomial.multiplicativeIdentity) args
  | .sub => normalizeArithmetic J (Polynomial.subtract J) none args
  | .div => normalizeArithmetic J (Polynomial.divide J) none args
  | .eq => normalizeCompare J .eq args
  | .ne => normalizeCompare J .ne args
  | .gt => normalizeCompare J .gt args
  | .ge => normalizeCompare J .ge args
  | .lt => normalizeCompare J .lt args
  | .le => normalizeCompare J .le args
  | op => restoreAndEvaluate J op args

/-- Trailing null results go; there has to be another one. -/
def popNulls (res : List (Expr × Arm)) : Except JsError (List (Expr × Arm)) :=
  match (res.reverse.dropWhile fun r => r.2.isNull).reverse with
  | [] => throw .typeError
  | res => pure res

/-- A literal that is true. -/
def Expr.isTrueLit (e : Expr) : Bool := !e.isArray && e.truthy

/-- The branches of a CASE argument that can be taken, the missing ELSE
included. -/
def branches (arms : List (Expr × Arm)) : List (Expr × Arm) :=
  let all := arms ++ [(Expr.ofBool true, .expr Expr.null)]
  let before := all.takeWhile fun r => !r.1.isTrueLit
  before ++ (all.drop before.length).take 1

/-- The choices of one branch for each CASE argument, with their conditions. -/
def permutations (args : List NExpr) : List (Expr × List Arm) :=
  args.foldl
    (fun res e =>
      match e with
      | .arm a => res.map fun r => (r.1, r.2 ++ [a])
      | .case arms =>
          (branches arms).flatMap fun wt => res.map fun r => (Expr.and wt.1 r.1, r.2 ++ [wt.2]))
    [(Expr.ofBool true, [])]

def normalizeArgs (J : Js) (op : Op) (args : List NExpr) : Except JsError NExpr := do
  let res ← (permutations args).mapM fun r => do
    let a ← normalizePlain J op r.2
    pure (r.1, a)
  match res with
  | [] => throw .typeError
  | (w, a) :: _ =>
      if w = Expr.ofBool true then pure (.arm a)
      else do
        let res ← popNulls res
        pure (.case res)

/-- A condition of a CASE. -/
def toCondition : NExpr → Except JsError Expr
  | .arm a => a.restore
  | .case arms =>
      pure (.app .case (arms.flatMap fun wt =>
        [wt.1, match wt.2 with
          | .expr e => e
          | .poly _ => Expr.ofBool true]))

/-- The loop of CASE over its conditions and results: a nested CASE is opened,
with its own missing ELSE. -/
def caseArms : List NExpr → Except JsError (List (Expr × Arm))
  | [] => pure []
  | [w] => do
      let w ← toCondition w
      if !w.isArray ∧ !w.truthy then pure [] else pure [(w, .expr Expr.null)]
  | w :: t :: rest => do
      let w ← toCondition w
      if !w.isArray ∧ !w.truthy then caseArms rest
      else
        match t with
        | .arm a => do
            let res ← caseArms rest
            pure ((w, a) :: res)
        | .case arms =>
            let opened := arms.map (fun r => (Expr.and w r.1, r.2)) ++ [(w, .expr Expr.null)]
            if w.isTrueLit then pure opened
            else do
              let res ← caseArms rest
              pure (opened ++ res)

def normalizeCase (args : List NExpr) : Except JsError NExpr := do
  let res ← caseArms args
  let res ← popNulls res
  pure (.case res)

def isCoalesce : List NExpr → Bool
  | .arm (.expr e) :: _ => decide (e = .lit (some (.str (js "COALESCE"))))
  | _ => false

def normalizeCallback (J : Js) : Shape NExpr → Except JsError NExpr
  | .lit v => pure (.arm (.expr (.lit v)))
  | .app .case args => normalizeCase args
  | .app .func args =>
      if isCoalesce args then do
        let res ← args.tail.mapM fun e => do
          let w ← normalizeArgs J .isNotNull [e]
          pure [w, e]
        normalizeCase res.flatten
      else normalizeArgs J .func args
  | .app op args => normalizeArgs J op args

def normalize (J : Js) (expr : Expr) : Except JsError Expr := do
  match ← expr.map (normalizeCallback J) with
  | .arm a => a.restore
  | .case arms =>
      let arms ← arms.mapM fun wt => do
        let t ← wt.2.restore
        pure [wt.1, t]
      pure (.app .case arms.flatten)

end GenieAcs
