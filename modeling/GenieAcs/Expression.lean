import GenieAcs.Like
import Mathlib.Data.Rat.Floor
import Mathlib.Data.List.Lex
import Mathlib.Order.Compare

/-!
# Expressions and their evaluation

Expressions are literals or an operator applied to arguments; the name of a
parameter and the name of a function are arguments like any other. `Expr.map`
walks an expression from the leaves up, and `evaluate` is that walk with
`evaluateCallback` at every node, so it also simplifies what it cannot
evaluate.

Numbers are exact rationals. What JavaScript itself provides on strings and
numbers beyond comparison and arithmetic is a parameter, `Js`.
-/

namespace GenieAcs

/-! ## Values and expressions -/

inductive Value where
  | bool (b : Bool)
  | num (q : ℚ)
  | str (s : JsString)
  deriving DecidableEq

inductive Op where
  | and | or | not
  | eq | ne | gt | ge | lt | le
  | like | notLike | isNull | isNotNull
  | add | sub | mul | div | mod | concat
  | case | func | param
  deriving DecidableEq, Repr

/-- A literal (`none` is null), or an operator with its arguments. -/
inductive Expr where
  | lit (v : Option Value)
  | app (op : Op) (args : List Expr)

namespace Expr

mutual

def decEq : (a b : Expr) → Decidable (a = b)
  | lit v, lit w =>
      if h : v = w then isTrue (by rw [h]) else isFalse (by intro he; cases he; exact h rfl)
  | app op as, app op' bs =>
      if h : op = op' then
        match decEqList as bs with
        | isTrue hs => isTrue (by rw [h, hs])
        | isFalse hs => isFalse (by intro he; cases he; exact hs rfl)
      else isFalse (by intro he; cases he; exact h rfl)
  | lit _, app _ _ => isFalse (by intro he; cases he)
  | app _ _, lit _ => isFalse (by intro he; cases he)

def decEqList : (as bs : List Expr) → Decidable (as = bs)
  | [], [] => isTrue rfl
  | a :: as, b :: bs =>
      match decEq a b, decEqList as bs with
      | isTrue h, isTrue hs => isTrue (by rw [h, hs])
      | isFalse h, _ => isFalse (by intro he; cases he; exact h rfl)
      | _, isFalse hs => isFalse (by intro he; cases he; exact hs rfl)
  | [], _ :: _ => isFalse (by intro he; cases he)
  | _ :: _, [] => isFalse (by intro he; cases he)

end

instance : DecidableEq Expr := decEq

/-- `["PARAM", name]`. -/
def ofParam (name : JsString) : Expr := app .param [lit (some (.str name))]

def null : Expr := lit none

def ofBool (b : Bool) : Expr := lit (some (.bool b))

/-- `Array.isArray`. -/
def isArray : Expr → Bool
  | lit _ => false
  | app _ _ => true

/-- Whether JavaScript takes it for true in a condition. -/
def truthy : Expr → Bool
  | lit none => false
  | lit (some (.bool b)) => b
  | lit (some (.num q)) => decide (q ≠ 0)
  | lit (some (.str s)) => decide (s ≠ [])
  | app _ _ => true

end Expr

/-- Argument `i`; beyond the last one it is undefined, which every test the
code makes treats as null. -/
def arg (args : List Expr) (i : Nat) : Expr := args.getD i Expr.null

/-- One node of an expression whose arguments have been mapped to `T`. -/
inductive Shape (T : Type) where
  | lit (v : Option Value)
  | app (op : Op) (args : List T)

def Shape.toExpr : Shape Expr → Expr
  | .lit v => .lit v
  | .app op args => .app op args

namespace Expr

variable {T : Type}

mutual

/-- The walk `map`: the arguments first, then the node. -/
def map (callback : Shape T → Except JsError T) : Expr → Except JsError T
  | lit v => callback (.lit v)
  | app op args => do
      let args ← mapArgs callback args
      callback (.app op args)

def mapArgs (callback : Shape T → Except JsError T) : List Expr → Except JsError (List T)
  | [] => pure []
  | e :: es => do
      let t ← map callback e
      let ts ← mapArgs callback es
      pure (t :: ts)

end

end Expr

/-! ## Values -/

/-- What the modelled code uses of JavaScript's strings and numbers.
`parseFloat` answers `none` for NaN. -/
structure Js where
  parseFloat : JsString → Option ℚ
  numberToString : ℚ → JsString
  toUpperCase : JsString → JsString
  toLowerCase : JsString → JsString
  round : Value → Value → Value
  test : JsString → Value → Bool

/-- For expressions that call none of these. -/
def idleJs : Js where
  parseFloat _ := none
  numberToString _ := []
  toUpperCase s := s
  toLowerCase s := s
  round v _ := v
  test _ _ := false

def boolToNumber (b : Bool) : ℚ := if b then 1 else 0

/-- `a > b ? 1 : a < b ? -1 : 0`. -/
def compareLt {α : Type} [LT α] [DecidableLT α] (a b : α) : Ordering :=
  if b < a then .gt else if a < b then .lt else .eq

def Value.ofBool : Value → Value
  | .bool b => .num (boolToNumber b)
  | v => v

/-- `compare`: booleans count as numbers, and strings come after numbers. -/
def Value.compare (a b : Value) : Ordering :=
  match a.ofBool, b.ofBool with
  | .num p, .num q => compareLt p q
  | .str s, .str t => compareLt s t
  | .str _, _ => .gt
  | _, .str _ => .lt
  | _, _ => .eq

def Value.toNumber (J : Js) : Value → ℚ
  | .num q => q
  | .bool b => boolToNumber b
  | .str s => (J.parseFloat s).getD 0

def Value.toString (J : Js) : Value → JsString
  | .str s => s
  | .num q => J.numberToString q
  | .bool b => J.numberToString (boolToNumber b)

/-! ## `reduce` -/

/-- One pass of the inner loop of `reduce` from index `i + 2`: after a merge
the loop goes on with the pair behind the result. The flag tells whether
anything was merged. -/
def reducePass (callback : Expr → Expr → Nat → Option Expr) :
    Nat → List Expr → Bool × List Expr
  | i, a :: b :: rest =>
      match callback a b i with
      | some r =>
          let (_, rest) := reducePass callback (i + 1) rest
          (true, r :: rest)
      | none =>
          let (changed, rest) := reducePass callback (i + 1) (b :: rest)
          (changed, a :: rest)
  | _, args => (false, args)

/-- The outer loop of `reduce`; every repeated pass has shortened the list. -/
def reduceLoop (callback : Expr → Expr → Nat → Option Expr) : Nat → List Expr → List Expr
  | 0, args => args
  | fuel + 1, args =>
      match reducePass callback 0 args with
      | (true, args) => reduceLoop callback fuel args
      | (false, args) => args

def reduce (op : Op) (callback : Expr → Expr → Nat → Option Expr) (args : List Expr) : Expr :=
  match reduceLoop callback (args.length + 1) args with
  | [e] => e
  | args => .app op args

/-- The callbacks of `reduce`: null if an operand is null, the operation if
both are literals, else skip. -/
def reduceWith (f : Value → Value → Nat → Option Expr) (a b : Expr) (i : Nat) : Option Expr :=
  match a, b with
  | .lit none, _ => some Expr.null
  | _, .lit none => some Expr.null
  | .lit (some v), .lit (some w) => f v w i
  | _, _ => none

/-! ## `evaluateCallback` -/

/-- CASE: the result of the first condition that holds, if every condition
before it is a literal. -/
def evaluateCase (exp : Expr) : List Expr → Expr
  | w :: t :: rest =>
      if w.isArray then exp else if w.truthy then t else evaluateCase exp rest
  | [w] => if w.isArray then exp else Expr.null
  | [] => Expr.null

/-- The arguments COALESCE keeps: none that is null, none after a literal. -/
def coalesceArgs : List Expr → List Expr
  | [] => []
  | .lit none :: es => coalesceArgs es
  | .lit (some v) :: _ => [.lit (some v)]
  | .app op as :: es => .app op as :: coalesceArgs es

def evaluateFunc (J : Js) (args : List Expr) : Expr :=
  let exp := Expr.app .func args
  if arg args 0 = .lit (some (.str (js "COALESCE"))) then
    match coalesceArgs args.tail with
    | [] => Expr.null
    | [e] => e
    | es => .app .func (arg args 0 :: es)
  else if arg args 0 = .lit (some (.str (js "UPPER"))) then
    match arg args 1 with
    | .lit none => Expr.null
    | .lit (some v) => .lit (some (.str (J.toUpperCase (v.toString J))))
    | .app _ _ => exp
  else if arg args 0 = .lit (some (.str (js "LOWER"))) then
    match arg args 1 with
    | .lit none => Expr.null
    | .lit (some v) => .lit (some (.str (J.toLowerCase (v.toString J))))
    | .app _ _ => exp
  else if arg args 0 = .lit (some (.str (js "ROUND"))) then
    let p := if args.length > 2 then arg args 2 else .lit (some (.num 0))
    match arg args 1, p with
    | .lit none, _ => Expr.null
    | _, .lit none => Expr.null
    | .lit (some n), .lit (some p) => .lit (some (J.round n p))
    | _, _ => exp
  else exp

/-- A literal that is false but not null. -/
def Expr.isFalseLit : Expr → Bool
  | .lit none => false
  | e => !e.truthy

/-- The second loop of AND: null at the first null, else the arguments that
are no literals, with nested ANDs opened. -/
def andArgs : List Expr → Option (List Expr)
  | [] => some []
  | .lit none :: _ => none
  | .lit (some _) :: es => andArgs es
  | .app .and as :: es => (andArgs es).map (as ++ ·)
  | .app op as :: es => (andArgs es).map (.app op as :: ·)

def evaluateAnd (args : List Expr) : Expr :=
  if args.any Expr.isFalseLit then Expr.ofBool false
  else
    match andArgs args with
    | none => Expr.null
    | some [] => Expr.ofBool true
    | some [e] => .app .and [e, Expr.ofBool true]
    | some es => .app .and es

/-- The loop of OR: `none` once an argument is true. -/
def orArgs : List Expr → Option (List Expr)
  | [] => some []
  | .app .or as :: es => (orArgs es).map (as ++ ·)
  | .app op as :: es => (orArgs es).map (.app op as :: ·)
  | .lit v :: es => if (Expr.lit v).truthy then none else orArgs es

def evaluateOr (args : List Expr) : Expr :=
  match orArgs args with
  | none => Expr.ofBool true
  | some [] => if args.any (decide <| · = Expr.null) then Expr.null else Expr.ofBool false
  | some [e] => .app .or [e, Expr.ofBool false]
  | some es => .app .or es

def evaluateNot (args : List Expr) : Expr :=
  match arg args 0 with
  | .lit none => Expr.null
  | .lit (some v) => Expr.ofBool (!(Expr.lit (some v)).truthy)
  | .app .not (e :: _) => e
  | .app _ _ => .app .not args

/-- LIKE and NOT LIKE; a pattern that is not a string has no `split`. -/
def evaluateLike (J : Js) (op : Op) (negate : Bool) (args : List Expr) : Except JsError Expr :=
  match arg args 0, arg args 1, arg args 2 with
  | .lit subject, .lit pat, .lit esc =>
      if 3 ≤ args.length ∧ esc = none then pure Expr.null
      else
        match subject, pat with
        | none, _ => pure Expr.null
        | _, none => pure Expr.null
        | some subject, some (.str pat) =>
            let esc := match esc with
              | some (.str esc) => some esc
              | _ => none
            pure (Expr.ofBool (J.test (Like.likePatternToRegExp pat esc) subject != negate))
        | some _, some _ => throw .typeError
  | _, _, _ => pure (.app op args)

/-- The six comparison operators, as a condition on `compare`. -/
def Op.holds : Op → Ordering → Bool
  | .eq, o => o == .eq
  | .ne, o => o != .eq
  | .gt, o => o == .gt
  | .ge, o => o != .lt
  | .lt, o => o == .lt
  | .le, o => o != .gt
  | _, _ => false

def evaluateCompare (op : Op) (args : List Expr) : Expr :=
  match arg args 0, arg args 1 with
  | .lit none, _ => Expr.null
  | _, .lit none => Expr.null
  | .lit (some v), .lit (some w) => Expr.ofBool (op.holds (v.compare w))
  | _, _ => .app op args

def isNullTest (onNull : Bool) (op : Op) (args : List Expr) : Expr :=
  match arg args 0 with
  | .lit none => Expr.ofBool onNull
  | .lit (some _) => Expr.ofBool (!onNull)
  | .app _ _ => .app op args

/-- JavaScript's remainder: the sign is the dividend's. -/
def remainder (a : ℚ) (b : ℤ) : ℚ :=
  let t := a / b
  a - b * (if 0 ≤ t then ⌊t⌋ else ⌈t⌉)

def trunc (q : ℚ) : ℤ := if 0 ≤ q then ⌊q⌋ else ⌈q⌉

def evaluateCallback (J : Js) : Op → List Expr → Except JsError Expr
  | .case, args => pure (evaluateCase (.app .case args) args)
  | .func, args => pure (evaluateFunc J args)
  | .param, args => pure (if arg args 0 = Expr.null then Expr.null else .app .param args)
  | .and, args => pure (evaluateAnd args)
  | .or, args => pure (evaluateOr args)
  | .not, args => pure (evaluateNot args)
  | .isNull, args => pure (isNullTest true .isNull args)
  | .isNotNull, args => pure (isNullTest false .isNotNull args)
  | .like, args => evaluateLike J .like false args
  | .notLike, args => evaluateLike J .notLike true args
  | .eq, args => pure (evaluateCompare .eq args)
  | .ne, args => pure (evaluateCompare .ne args)
  | .gt, args => pure (evaluateCompare .gt args)
  | .ge, args => pure (evaluateCompare .ge args)
  | .lt, args => pure (evaluateCompare .lt args)
  | .le, args => pure (evaluateCompare .le args)
  | .mul, args => pure <| reduce .mul
      (reduceWith fun a b _ => some (.lit (some (.num (a.toNumber J * b.toNumber J))))) args
  | .div, args => pure <| reduce .div
      (reduceWith fun a b i =>
        if i ≠ 0 then some (.lit (some (.num (a.toNumber J * b.toNumber J))))
        else if b.toNumber J = 0 then some Expr.null
        else some (.lit (some (.num (a.toNumber J / b.toNumber J))))) args
  | .add, args => pure <| reduce .add
      (reduceWith fun a b _ => some (.lit (some (.num (a.toNumber J + b.toNumber J))))) args
  | .sub, args => pure <| reduce .sub
      (reduceWith fun a b i =>
        if i = 0 then some (.lit (some (.num (a.toNumber J - b.toNumber J))))
        else some (.lit (some (.num (a.toNumber J + b.toNumber J))))) args
  | .mod, args => pure <| reduce .mod
      (reduceWith fun a b i =>
        if i ≠ 0 then none
        else if trunc (b.toNumber J) = 0 then some Expr.null
        else some (.lit (some (.num (remainder (a.toNumber J) (trunc (b.toNumber J))))))) args
  | .concat, args => pure <| reduce .concat
      (reduceWith fun a b _ => some (.lit (some (.str (a.toString J ++ b.toString J))))) args

/-- What `evaluate` reads parameters from; without it they stay. -/
abbrev Lookup := JsString → Option Value

/-- The callback of `evaluate` at one node. -/
def evaluateNode (J : Js) (obj : Option Lookup) (now : Option ℚ) : Expr → Except JsError Expr
  | .lit v => pure (.lit v)
  | .app .func args =>
      match now with
      | some t =>
          if arg args 0 = .lit (some (.str (js "NOW"))) ∧ t ≠ 0 then pure (.lit (some (.num t)))
          else evaluateCallback J .func args
      | none => evaluateCallback J .func args
  | .app .param args =>
      match obj, arg args 0 with
      | _, .lit none => pure Expr.null
      | some obj, .lit (some name) => pure (.lit (obj (name.toString J)))
      | _, _ => evaluateCallback J .param args
  | .app op args => evaluateCallback J op args

def evaluate (J : Js) (exp : Expr) (obj : Option Lookup) (now : Option ℚ)
    (cb : Expr → Expr) : Except JsError Expr :=
  exp.map fun e => evaluateNode J obj now (cb e.toExpr)

/-! ## Conjunction and disjunction of two expressions -/

/-- The arguments of `op`, or the expression itself. -/
def operandsOf (op : Op) : Expr → List Expr
  | .app op' args => if op' = op then args else [.app op' args]
  | e => [e]

/-- The expression is an array headed by `op`. -/
def Expr.isApp (op : Op) : Expr → Bool
  | .app op' _ => decide (op' = op)
  | .lit _ => false

def Expr.and (exp1 exp2 : Expr) : Expr :=
  if exp1.isFalseLit ∨ exp2.isFalseLit then Expr.ofBool false
  else if !exp1.isArray ∧ !exp2.isArray then
    if exp1 = Expr.null ∨ exp2 = Expr.null then Expr.null else Expr.ofBool true
  else if !exp2.isArray ∧ exp1.isApp .and then exp1
  else if !exp1.isArray ∧ exp2.isApp .and then exp2
  else .app .and (operandsOf .and exp1 ++ operandsOf .and exp2)

def Expr.or (exp1 exp2 : Expr) : Expr :=
  if !exp1.isArray ∧ exp1.truthy then Expr.ofBool true
  else if !exp2.isArray ∧ exp2.truthy then Expr.ofBool true
  else if !exp1.isArray ∧ !exp2.isArray then
    if exp1 = Expr.null ∨ exp2 = Expr.null then Expr.null else Expr.ofBool false
  else if !exp2.isArray ∧ exp1.isApp .or then exp1
  else if !exp1.isArray ∧ exp2.isApp .or then exp2
  else .app .or (operandsOf .or exp1 ++ operandsOf .or exp2)

end GenieAcs
