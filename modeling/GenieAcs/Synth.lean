import GenieAcs.Lib.Cover
import GenieAcs.Normalize

/-!
# Synthesis of expressions

A filter becomes a clause, a clause becomes the minterms under which it is
true, false or null, and minterms are minimised and printed as an expression
again. Each clause that is not built from others is a variable of the context
it is asked for minterms in; variable `v` has the literals `4 * v + k`, which
say of the clause

* `k = 3`: true, `k = 2`: not true,
* `k = 1`: false, `k = 0`: not false.

The methods of the clauses call one another through freshly made clauses and
contexts, so none of them is a recursion over the clause. `Methods` holds what
can be called with a certain depth of stack left, `Methods.next` is the body
of every method, and `methods n` ties the knot `n` deep.
-/

namespace GenieAcs

inductive CompareOp where
  | gt | lt | eq
  deriving DecidableEq

def CompareOp.toOp : CompareOp → Op
  | .gt => .gt
  | .lt => .lt
  | .eq => .eq

inductive Clause where
  | not (operand : Clause)
  | or (operands : List Clause)
  | and (operands : List Clause)
  | case (clauses : List Clause)
  | isNull (operand : Clause)
  | exp (exp : Expr)
  | compare (lhs : Clause) (op : CompareOp) (rhs : Value)
  | like (lhs : Clause) (rhs : JsString) (esc : Option JsString) (pattern : List JsString)
      (caseSensitive contradiction : Bool)

namespace Clause

/-- A piece of the JSON text of a clause. The text does not name the classes,
only their fields. -/
inductive JsonToken where
  | operand | operands | clauses | close
  | exp (exp : Expr)
  | compare (op : CompareOp) (rhs : Value)
  | like (rhs : JsString) (esc : Option JsString) (caseSensitive contradiction : Bool)
  deriving DecidableEq

mutual

/-- The JSON text of a clause, but for cached expressions; there is none of an
IS NULL clause, which contains itself. -/
def json : Clause → Except JsError (List JsonToken)
  | not operand => do
      let c ← json operand
      pure (.operand :: c)
  | or operands => do
      let cs ← jsonList operands
      pure (.operands :: cs)
  | and operands => do
      let cs ← jsonList operands
      pure (.operands :: cs)
  | case clauses => do
      let cs ← jsonList clauses
      pure (.clauses :: cs)
  | isNull _ => throw .typeError
  | exp e => pure [.exp e]
  | compare lhs op rhs => do
      let l ← json lhs
      pure (.compare op rhs :: l)
  | like lhs rhs esc _ caseSensitive contradiction => do
      let l ← json lhs
      pure (.like rhs esc caseSensitive contradiction :: l)

def jsonList : List Clause → Except JsError (List JsonToken)
  | [] => pure [.close]
  | c :: cs => do
      let t ← json c
      let ts ← jsonList cs
      pure (t ++ ts)

end

mutual

def isBoolean : Clause → Bool
  | exp (.lit none) => true
  | exp (.lit (some (.bool _))) => true
  | exp _ => false
  | case clauses => resultsBoolean clauses
  | _ => true

/-- The results of a CASE, every second clause, are Boolean. -/
def resultsBoolean : List Clause → Bool
  | _ :: t :: rest => isBoolean t && resultsBoolean rest
  | _ => true

end

/-- The operands of an OR; `none` for any other clause. -/
def orOperands : Clause → Option (List Clause)
  | or operands => some operands
  | _ => none

/-- The operands of an AND; `none` for any other clause. -/
def andOperands : Clause → Option (List Clause)
  | and operands => some operands
  | _ => none

theorem sizeOf_orOperands {c : Clause} {cs : List Clause} (h : orOperands c = some cs) :
    sizeOf cs < sizeOf c := by
  cases c <;> simp [orOperands] at h
  subst h
  simp

theorem sizeOf_andOperands {c : Clause} {cs : List Clause} (h : andOperands c = some cs) :
    sizeOf cs < sizeOf c := by
  cases c <;> simp [andOperands] at h
  subst h
  simp

theorem sizeOf_append (as bs : List Clause) : sizeOf (as ++ bs) + 1 = sizeOf as + sizeOf bs := by
  induction as with
  | nil =>
      simp only [List.nil_append, List.nil.sizeOf_spec]
      omega
  | cons a as ih =>
      simp only [List.cons_append, List.cons.sizeOf_spec]
      omega

/-- The operands in the order the loop visits them: those of a nested clause of
the same kind come behind all others. -/
def flatten (nested : Clause → Option (List Clause))
    (smaller : ∀ c cs, nested c = some cs → sizeOf cs < sizeOf c) : List Clause → List Clause
  | [] => []
  | c :: rest =>
      match _h : nested c with
      | some cs => flatten nested smaller (rest ++ cs)
      | none => c :: flatten nested smaller rest
termination_by cs => sizeOf cs
decreasing_by
  · have := smaller c cs _h
    have := sizeOf_append rest cs
    simp only [List.cons.sizeOf_spec]
    omega
  · simp only [List.cons.sizeOf_spec]
    omega

def flattenOr : List Clause → List Clause := flatten orOperands fun _ _ => sizeOf_orOperands

def flattenAnd : List Clause → List Clause := flatten andOperands fun _ _ => sizeOf_andOperands

end Clause

/-! ## Contexts -/

abbrev Minterm := List Nat

abbrev Minterms := List Minterm

/-- Literal `k` of variable `v`, that is `(v << 2) ^ k`. -/
def literal (v k : Nat) : Nat := 4 * v + k

/-- The variables in the order they were made: the expression that names the
variable, and its clause. -/
structure SynthContext where
  clauses : List (Expr × Clause) := []

def SynthContext.getClause (Γ : SynthContext) (v : Nat) : Option Clause :=
  (Γ.clauses[v]?).map (·.2)

abbrev SynthM := StateT SynthContext (Except JsError)

/-- What steers the minimiser. -/
structure Hints where
  canRaise : Nat → List Nat → Except JsError Bool
  canLower : Nat → List Nat → Except JsError Bool
  bias : Nat → Nat → Int

/-- The code the synthesis rests on: JavaScript's own, and the minimiser. -/
structure Env where
  J : Js
  M : Cover.Minimiser Hints

/-- The methods that call one another. An IS NULL clause that `getNullables`
yields is given by its operand, with a flag when that is the clause itself. -/
structure Methods where
  expression : Clause → Except JsError Expr
  true' : Clause → SynthM Minterms
  false' : Clause → SynthM Minterms
  null' : Clause → SynthM Minterms
  getNullables : Clause → Except JsError (List (Bool × Clause))
  toExpression : Minterms → SynthM Expr
  rounds : Nat

/-! ## Nullables -/

mutual

/-- The subexpressions whose being null makes the expression null. -/
def findIsNullDeps : Expr → List Expr
  | .lit _ => []
  | .app op args =>
      if op = .isNull ∨ op = .isNotNull then []
      else if op = .func then
        if arg args 0 = .lit (some (.str (js "NOW"))) then []
        else if arg args 0 = .lit (some (.str (js "LOWER")))
            ∨ arg args 0 = .lit (some (.str (js "UPPER"))) then
          depsBetween 1 1 args ++ [.app op args]
        else if arg args 0 = .lit (some (.str (js "ROUND"))) then depsBetween 1 2 args
        else [.app op args]
      else if op = .param then [.app op args]
      else depsBetween 0 args.length args

/-- The dependencies of `count` arguments after the first `skip`. -/
def depsBetween : Nat → Nat → List Expr → List Expr
  | _, _, [] => []
  | skip + 1, count, _ :: es => depsBetween skip count es
  | 0, count + 1, e :: es => findIsNullDeps e ++ depsBetween 0 count es
  | 0, 0, _ :: _ => []

end

namespace Methods

variable (E : Env) (self : Methods)

def getNullables' : Clause → Except JsError (List (Bool × Clause))
  | .isNull _ => pure []
  | .compare lhs _ _ => do
      let ns ← self.getNullables lhs
      pure (ns.map fun n => (false, n.2))
  | .like lhs _ _ _ _ _ => do
      let ns ← self.getNullables lhs
      pure (ns.map fun n => (false, n.2))
  | c => do
      let exp ← self.expression c
      pure ((findIsNullDeps exp).map fun e =>
        if e = exp then (true, c) else (false, .exp e))

/-- `isNullable`: some nullable of the clause is the given IS NULL clause. -/
def isNullable (c : Clause) (isNull : Clause) : Except JsError Bool := do
  let ns ← self.getNullables c
  let keys ← ns.mapM fun n => self.expression (.isNull n.2)
  let key ← self.expression isNull
  pure (keys.contains key)

/-! ## Variables and their literals -/

def getVar (c : Clause) : SynthM Nat := do
  let key ← self.expression c
  let Γ ← get
  match Γ.clauses.findIdx? fun entry => entry.1 = key with
  | some v => pure v
  | none => do
      set ({ clauses := Γ.clauses ++ [(key, c)] } : SynthContext)
      pure Γ.clauses.length

def getMinterms (c : Clause) (res : Option Bool) : SynthM Minterms := do
  let v ← self.getVar c
  match res with
  | some true => pure [[literal v 3]]
  | some false => pure [[literal v 1]]
  | none => pure [[literal v 0, literal v 2]]

/-- The variables of the nullables of a clause. -/
def isNullVars (c : Clause) : SynthM (List Nat) := do
  let ns ← self.getNullables c
  ns.mapM fun n => self.getVar (.isNull n.2)

/-! ## Minterms of a clause -/

/-- The minterms of one operand after the other; `none` as soon as those of
one operand decide the result. -/
def collect (f : Clause → SynthM Minterms) (decisive : Minterms → Bool) :
    List Clause → SynthM (Option (List Minterms))
  | [] => pure (some [])
  | c :: cs => do
      let m ← f c
      if decisive m then pure none
      else do
        let ms ← collect f decisive cs
        pure (ms.map (m :: ·))

/-- The single empty minterm, which always holds. -/
def always (m : Minterms) : Bool := decide (m = [[]])

/-- Some operand holds: OR being true, AND being false. -/
def someMinterms (f : Clause → SynthM Minterms) (operands : List Clause) : SynthM Minterms := do
  match ← collect f always operands with
  | none => pure [[]]
  | some ms => pure ms.flatten

/-- All covers hold. -/
def conjunction : List Minterms → Minterms
  | [] => [[]]
  | [m] => m
  | ms => E.M.complement (ms.map E.M.complement).flatten

/-- OR being null or AND being null: no operand decides, and some is null. -/
def undecidedMinterms (deciding : Clause → SynthM Minterms) (operands : List Clause) :
    SynthM Minterms := do
  match ← collect deciding always operands with
  | none => pure []
  | some ts =>
      let decidedMinterms := ts.flatten
      match ← collect self.null' (fun n => always n && decidedMinterms.isEmpty) operands with
      | none => pure [[]]
      | some ns =>
          if decidedMinterms.isEmpty then pure ns.flatten
          else pure (E.M.complement (E.M.complement ns.flatten ++ decidedMinterms))

/-- The branches of a CASE whose result has the minterms `f`, each without the
branches before it; and the minterms of all conditions. For `null` the
condition of the last branch counts as well. -/
def caseMinterms (f : Clause → SynthM Minterms) (last : Bool) (cumulative : Minterms) :
    List Clause → SynthM (Minterms × Minterms)
  | w :: t :: rest => do
      let wm ← self.true' w
      let tm ← f t
      let here := E.M.complement (cumulative ++ E.M.complement wm ++ E.M.complement tm)
      if last = true ∨ rest ≠ [] then do
        let wf ← self.false' w
        let wn ← self.null' w
        let cumulative := cumulative ++ E.M.complement (wf ++ wn)
        let (more, cumulative) ← caseMinterms f last cumulative rest
        pure (here ++ more, cumulative)
      else pure (here, cumulative)
  | [_] => throw .typeError
  | [] => pure ([], cumulative)

def trueMinterms : Clause → SynthM Minterms
  | .not c => self.false' c
  | .or operands => someMinterms self.true' operands
  | .and operands => do
      match ← collect self.true' List.isEmpty (Clause.flattenAnd operands) with
      | none => pure []
      | some ms => pure (conjunction E (ms.filter fun m => !always m))
  | .case clauses => do
      let (ms, _) ← caseMinterms E self self.true' false [] clauses
      pure ms
  | .isNull c => self.null' c
  | .exp e => if e.isArray then self.getMinterms (.exp e) (some true)
      else pure (if e.truthy then [[]] else [])
  | .compare lhs op rhs => self.getMinterms (.compare lhs op rhs) (some true)
  | .like lhs rhs esc pattern cs con =>
      self.getMinterms (.like lhs rhs esc pattern cs con) (some true)

def falseMinterms : Clause → SynthM Minterms
  | .not c => self.true' c
  | .or operands => do
      match ← collect self.false' List.isEmpty (Clause.flattenOr operands) with
      | none => pure []
      | some ms => pure (conjunction E ms)
  | .and operands => someMinterms self.false' operands
  | .case clauses => do
      let (ms, _) ← caseMinterms E self self.false' false [] clauses
      pure ms
  | .isNull c => do
      let m ← self.true' (.isNull c)
      pure (E.M.complement m)
  | .exp e => if e.isArray then self.getMinterms (.exp e) (some false)
      else pure (if !e.truthy && e != Expr.null then [[]] else [])
  | .compare lhs op rhs => self.getMinterms (.compare lhs op rhs) (some false)
  | .like lhs rhs esc pattern cs con =>
      self.getMinterms (.like lhs rhs esc pattern cs con) (some false)

def nullMinterms : Clause → SynthM Minterms
  | .not c => self.null' c
  | .or operands => undecidedMinterms E self self.true' (Clause.flattenOr operands)
  | .and operands => undecidedMinterms E self self.false' (Clause.flattenAnd operands)
  | .case clauses => do
      let (ms, cumulative) ← caseMinterms E self self.null' true [] clauses
      pure (ms ++ E.M.complement cumulative)
  | .isNull _ => pure []
  | .exp e => if e.isArray then self.getMinterms (.exp e) none
      else pure (if e = Expr.null then [[]] else [])
  | .compare lhs _ _ => self.null' lhs
  | .like lhs _ _ _ _ _ => self.null' lhs

/-! ## The don't-care set -/

/-- Every value of the operand is below, at or above `v`. -/
def trichotomy (eq gt lt : Nat) : Minterms :=
  [[literal eq 3, literal gt 3], [literal lt 3, literal gt 3], [literal lt 3, literal eq 3],
    [literal lt 1, literal eq 1, literal gt 1]]

/-- The comparisons with `v` against those with a smaller value. -/
def ordered (eq gt lt eq2 gt2 lt2 : Nat) : Minterms :=
  [[literal gt2 1, literal lt 1], [literal eq2 3, literal lt 1], [literal lt2 3, literal lt 1],
    [literal gt2 1, literal gt 3], [literal gt2 1, literal eq 3], [literal eq2 3, literal gt 3],
    [literal eq2 3, literal eq 3], [literal lt2 3, literal gt 3], [literal lt2 3, literal eq 3]]

/-- The variables of the three comparisons of the operand with `v`. -/
def compareVars (lhs : Clause) (v : Value) : SynthM (Nat × Nat × Nat) := do
  let eq ← self.getVar (.compare lhs .eq v)
  let gt ← self.getVar (.compare lhs .gt v)
  let lt ← self.getVar (.compare lhs .lt v)
  pure (eq, gt, lt)

/-- If two of the three comparisons are there, the third one is allowed. -/
def allowThird (whitelist : List Nat) (eq gt lt : Nat) : List Nat :=
  match [lt, eq, gt].filter fun o => !whitelist.contains o with
  | [o] => whitelist ++ [o]
  | _ => whitelist

/-- The loop over the sorted values; `earlier` are those before. -/
def dcValues (lhs : Clause) (earlier : List Value) (whitelist : List Nat) :
    List Value → SynthM (Minterms × List Nat)
  | [] => pure ([], whitelist)
  | v :: vs => do
      let (eq, gt, lt) ← self.compareVars lhs v
      let pairs ← earlier.mapM fun w => do
        let (eq2, gt2, lt2) ← self.compareVars lhs w
        pure (ordered eq gt lt eq2 gt2 lt2)
      let (rest, whitelist) ← dcValues lhs (earlier ++ [v]) (allowThird whitelist eq gt lt) vs
      pure (trichotomy eq gt lt ++ pairs.flatten ++ rest, whitelist)

/-- The order the values are sorted in. -/
def valueBefore (a b : Value) : Prop := a.compare b ≠ .gt

instance (a b : Value) : Decidable (valueBefore a b) := by
  unfold valueBefore
  infer_instance

/-- The loop of `groupBy`: the groups so far, and an item with its key. -/
def groupStep {K α : Type} [DecidableEq K] (groups : List (K × List α)) (item : K × α) :
    List (K × List α) :=
  match groups.findIdx? fun g => decide (g.1 = item.1) with
  | some i => groups.modify i fun g => (g.1, g.2 ++ [item.2])
  | none => groups ++ [(item.1, [item.2])]

/-- `groupBy` of items with their keys. -/
def groupBy {K α : Type} [DecidableEq K] (items : List (K × α)) : List (K × List α) :=
  items.foldl groupStep []

/-- The left operand of a comparison or of a LIKE. -/
def lhsOf : Clause → Clause
  | .compare lhs _ _ => lhs
  | .like lhs _ _ _ _ _ => lhs
  | c => c

/-- The expression of the left operand, in the expression of its clause. -/
def operandExpr : Clause → Expr → Expr
  | .like _ _ _ _ cs con, .app _ args =>
      if con || !cs then
        match arg args 0 with
        | .app _ args => arg args 1
        | e => e
      else arg args 0
  | _, .app _ args => arg args 0
  | _, e => e

/-- The JSON text of a left operand, with its expression, which it has cached
since its clause was named. -/
structure LhsKey where
  text : List Clause.JsonToken
  expression : Expr
  deriving DecidableEq

def lhsKey (c : Clause) : Except JsError LhsKey := do
  let text ← (lhsOf c).json
  let exp ← self.expression c
  pure { text, expression := operandExpr c exp }

def groupByLhs (clauses : List Clause) : Except JsError (List (List Clause)) := do
  let keyed ← clauses.mapM fun c => do
    let key ← self.lhsKey c
    pure (key, c)
  pure ((groupBy keyed).map (·.2))

def isCompare : Clause → Bool
  | .compare _ _ _ => true
  | _ => false

def isLike : Clause → Bool
  | .like _ _ _ _ _ _ => true
  | _ => false

def rhsOf : Clause → Option Value
  | .compare _ _ rhs => some rhs
  | _ => none

/-- The don't-cares of the comparisons, group by group. -/
def dcComparisons (whitelist : List Nat) : List (List Clause) → SynthM (Minterms × List Nat)
  | [] => pure ([], whitelist)
  | clauses :: groups => do
      let lhs := (clauses.head?.map lhsOf).getD (.exp Expr.null)
      let values := (clauses.filterMap rhsOf).eraseDups.insertionSort valueBefore
      let (here, whitelist) ← self.dcValues lhs [] whitelist values
      let (rest, whitelist) ← dcComparisons whitelist groups
      pure (here ++ rest, whitelist)

/-- The don't-cares of two LIKE clauses on one operand. -/
def dcLikePair (l1 l2 : Clause) : SynthM Minterms :=
  match l1, l2 with
  | .like _ _ _ pattern1 cs1 _, .like _ _ _ pattern2 cs2 con2 =>
      if con2 then pure []
      else do
        let fold := if !cs1 || !cs2 then List.map E.J.toLowerCase else id
        let p1 := fold pattern1
        let p2 := fold pattern2
        if Like.likeDisjoint p1 p2 then do
          let v1 ← self.getVar l1
          let v2 ← self.getVar l2
          pure [[literal v1 3, literal v2 3]]
        else if (!cs1 || cs2) && Like.likeImplies p1 p2 then do
          let v1 ← self.getVar l1
          let v2 ← self.getVar l2
          pure [[literal v1 2, literal v2 3], [literal v1 1, literal v2 0]]
        else if (!cs2 || cs1) && Like.likeImplies p2 p1 then do
          let v1 ← self.getVar l1
          let v2 ← self.getVar l2
          pure [[literal v1 3, literal v2 2], [literal v1 0, literal v2 1]]
        else pure []
  | _, _ => pure []

/-- The don't-cares of the LIKE clauses on one operand. -/
def dcLikeGroup : List Clause → SynthM Minterms
  | [] => pure []
  | l1 :: ls =>
      match l1 with
      | .like _ _ _ _ _ true => do
          let v ← self.getVar l1
          let rest ← dcLikeGroup ls
          pure ([literal v 3] :: rest)
      | _ => do
          let here ← ls.mapM fun l2 => dcLikePair E self l1 l2
          let rest ← dcLikeGroup ls
          pure (here.flatten ++ rest)

/-- The null conditions of a variable with nullables `ns`. -/
def nullConditions (v : Nat) (ns : List Nat) : Minterms :=
  if ns = [] then []
  else (ns.map (literal · 2) ++ [literal v 0, literal v 2])
    :: ns.flatMap fun n => [[literal n 3, literal v 1], [literal n 3, literal v 3]]

/-- The variables of `ns` a set does not have yet, in order. -/
def missing (set ns : List Nat) : List Nat :=
  ns.foldl (fun acc n => if set.contains n || acc.contains n then acc else acc ++ [n]) []

/-- The device id is never null. -/
def idConditions (v : Nat) : Clause → Except JsError Minterms
  | .isNull c => do
      let e ← self.expression c
      pure (if e = .ofParam (js "DeviceID.ID") ∨ e = .ofParam (js "_id") then [[literal v 3]]
        else [])
  | _ => pure []

/-- The last loop of `getDcSet`, for the variables `todo`; the nullables it
meets are appended to the whitelist. -/
def dcNullPass (whitelist : List Nat) : List Nat → SynthM (Minterms × List Nat)
  | [] => pure ([], whitelist)
  | v :: todo => do
      let Γ ← get
      match Γ.getClause v with
      | none => throw .typeError
      | some clause => do
          let ns ← self.isNullVars clause
          let ids ← self.idConditions v clause
          let (rest, whitelist) ← dcNullPass (whitelist ++ missing whitelist ns) todo
          pure (nullConditions v ns ++ ids ++ rest, whitelist)

/-- The whole loop: what a pass has appended to the whitelist is gone through
in turn. -/
def dcNulls : Nat → List Nat → List Nat → SynthM (Minterms × List Nat)
  | _, [], whitelist => pure ([], whitelist)
  | 0, _ :: _, _ => throw .stackOverflow
  | rounds + 1, v :: todo, whitelist => do
      let (here, whitelist') ← self.dcNullPass whitelist (v :: todo)
      let (rest, whitelist'') ←
        dcNulls rounds (whitelist'.drop whitelist.length) whitelist'
      pure (here ++ rest, whitelist'')

/-- The clauses of the variables of a set; all of them are there. -/
def clausesOf (vs : List Nat) : SynthM (List Clause) := do
  let Γ ← get
  pure (vs.filterMap Γ.getClause)

def getDcSet (minterms : Minterms) : SynthM Minterms := do
  let whitelist := (minterms.flatten.map (· / 4)).eraseDups
  let allClauses ← clausesOf whitelist
  let groups ← self.groupByLhs (allClauses.filter isCompare)
  let (comparisons, whitelist) ← self.dcComparisons whitelist groups
  let groups ← self.groupByLhs (allClauses.filter isLike)
  let likes ← groups.mapM (dcLikeGroup E self)
  let (nulls, whitelist) ← self.dcNulls self.rounds whitelist whitelist
  pure ((comparisons ++ likes.flatten ++ nulls).filter
    fun m => m.all fun l => whitelist.contains (l / 4))

/-! ## Hints -/

/-- `i ^ 3`. -/
def flipBoth (i : Nat) : Nat := literal (i / 4) (3 - i % 4)

def canRaise (Γ : SynthContext) (idx : Nat) (set : List Nat) : Except JsError Bool :=
  match Γ.getClause (idx / 4) with
  | some (.isNull c) => do
      let hits ← (set.filter fun i => i ≠ idx ∧ i % 2 = 0).mapM fun i =>
        match Γ.getClause (i / 4) with
        | some d => self.isNullable d (.isNull c)
        | none => throw .typeError
      pure (!hits.any id)
  | _ => pure (decide (idx % 2 = 0) || !set.contains (flipBoth idx))

def canLower (Γ : SynthContext) (idx : Nat) (set : List Nat) : Except JsError Bool :=
  if idx % 2 = 1 then pure true
  else
    match Γ.getClause (idx / 4) with
    | some (.isNull _) => pure true
    | _ => pure (set.contains (flipBoth idx) || set.contains (Cover.flip idx))

/-- Bias towards 1 then true. -/
def bias (a b : Nat) : Int := (3 - (b % 4 : Nat) : Int) - (3 - (a % 4 : Nat) : Int)

def hints (Γ : SynthContext) : Hints where
  canRaise := self.canRaise Γ
  canLower := canLower Γ
  bias := bias

/-! ## Minterms without half literals -/

/-- What the literals of variable `v` in the minterm come to: the literals that
stay and the alternatives for those that go, or `none` if they contradict one
another. -/
def sanitizeVar (m : Minterm) (v : Nat) : SynthM (Option (Minterm × Minterms)) := do
  let has (k : Nat) : Bool := m.contains (literal v k)
  if has 0 && has 1 then pure none
  else if has 2 && has 3 then pure none
  else do
    let Γ ← get
    match Γ.getClause v with
    | none => throw .invalidLiteral
    | some (.isNull _) =>
        if has 0 || has 1 then throw .invalidLiteral
        else pure (some ([if has 2 then literal v 2 else literal v 3], []))
    | some clause =>
        if has 1 && has 3 then pure none
        else do
          let ns ← self.isNullVars clause
          let nulls := ns.map (literal · 3)
          if has 0 && has 2 then
            match ns with
            | [n] => pure (some ([literal n 3], []))
            | _ => pure (some ([], [nulls]))
          else if has 3 then pure (some ([literal v 3], []))
          else if has 1 then pure (some ([literal v 1], []))
          else if has 0 then pure (some ([], [nulls ++ [literal v 3]]))
          else pure (some ([], [nulls ++ [literal v 1]]))

/-- The variables of a minterm one after the other, up to a contradiction. -/
def sanitizeVars (m : Minterm) : List Nat → SynthM (Option (Minterm × Minterms))
  | [] => pure (some ([], []))
  | v :: vs => do
      match ← self.sanitizeVar m v with
      | none => pure none
      | some (kept, perms) => do
          match ← sanitizeVars m vs with
          | none => pure none
          | some (kept', perms') => pure (some (kept ++ kept', perms ++ perms'))

/-- One alternative of each permutation, the last permutation first. -/
def expandPerms (minterm : Minterm) (perms : Minterms) : Minterms :=
  perms.foldr (fun perm ms => perm.flatMap fun p => ms.map (· ++ [p])) [minterm]

def sanitizeMinterm (m : Minterm) : SynthM Minterms := do
  match ← self.sanitizeVars m (m.map (· / 4)).eraseDups with
  | none => pure []
  | some (minterm, perms) => pure (expandPerms minterm perms)

def sanitizeMinterms (minterms : Minterms) : SynthM Minterms := do
  let res ← minterms.mapM self.sanitizeMinterm
  pure res.flatten

def minimize (minterms dcSet : Minterms) : SynthM Minterms := do
  let minterms ← self.sanitizeMinterms minterms
  let dc ← getDcSet E self (minterms ++ dcSet)
  let Γ ← get
  pure (E.M.espresso minterms (dc ++ dcSet) (self.hints Γ))

/-! ## Printing -/

/-- NOT of an expression, with the operators that have an opposite swapped. -/
def simplifyNot : Expr → Expr
  | .app .not [.app .isNull args] => .app .isNotNull args
  | .app .not [.app .like args] => .app .notLike args
  | .app .not [.app .eq args] => .app .ne args
  | .app .not [.app .ne args] => .app .eq args
  | .app .not [.app .gt args] => .app .le args
  | .app .not [.app .ge args] => .app .lt args
  | .app .not [.app .lt args] => .app .ge args
  | .app .not [.app .le args] => .app .gt args
  | .app .not [.app .not (e :: _)] => e
  | e => e

def literalExpression (i : Nat) : SynthM Expr := do
  let Γ ← get
  match Γ.getClause (i / 4) with
  | none => throw .invalidLiteral
  | some clause => do
      let negated := decide (i % 4 = 1 ∨ i % 4 = 2)
      let print : SynthM Expr := do
        let expr ← self.expression clause
        pure (simplifyNot (if negated then .app .not [expr] else expr))
      match clause with
      | .isNull _ => if i % 4 < 2 then throw .invalidLiteral else print
      | _ =>
          if i % 2 = 0 then do
            let ns ← self.isNullVars clause
            self.toExpression ([flipBoth i] :: ns.map fun n => [literal n 3])
          else print

/-- `["AND", ...conjs]`, or the only one. -/
def joinWith (op : Op) : List Expr → Expr
  | [e] => e
  | es => .app op es

/-- The loop of `toExpression`; `none` at a minterm without literals. -/
def products : Minterms → SynthM (Option (List Expr))
  | [] => pure (some [])
  | [] :: _ => pure none
  | s :: sop => do
      let conjs ← s.mapM self.literalExpression
      let rest ← products sop
      pure (rest.map (joinWith .and conjs :: ·))

def toExpression' (sop : Minterms) : SynthM Expr :=
  if sop = [] then pure (Expr.ofBool false)
  else do
    match ← self.products sop with
    | none => pure (Expr.ofBool true)
    | some res => pure (joinWith .or res)

/-! ## Expressions of clauses -/

/-- The expression of the condition: its minterms in a context of its own,
minimised and printed. -/
def synthesize (c : Clause) : Except JsError Expr := do
  let synthesis : SynthM Expr := do
    let minterms ← self.true' c
    let minimized ← minimize E self minterms []
    self.toExpression minimized
  let (e, _) ← synthesis.run {}
  pure e

/-- The branches of a CASE clause so far, the latest first. -/
abbrev Branches := List (Minterms × Expr)

/-- The loop of `Case.expression`: each condition is minimised with the earlier
ones as don't-cares, and a branch with the same result is opened again. -/
def caseBranches (cases : Branches) : List Clause → SynthM Branches
  | [] => pure cases
  | [_] => throw .typeError
  | w :: t :: rest => do
      let when ← self.true' w
      let result ← self.expression t
      let (when, cases) := match cases with
        | (when', result') :: before =>
            if result' = result then (when ++ when', before) else (when, cases)
        | [] => (when, cases)
      let minterms ← minimize E self when (cases.reverse.flatMap (·.1))
      if minterms = [] then caseBranches cases rest
      else if minterms = [[]] then pure ((minterms, result) :: cases)
      else caseBranches ((minterms, result) :: cases) rest

def caseExpression (clauses : List Clause) : Except JsError Expr := do
  let synthesis : SynthM Expr := do
    let cases ← caseBranches E self [] clauses
    match (cases.dropWhile fun c => c.2 = Expr.null).reverse with
    | [] => throw .typeError
    | cases => do
        let args ← cases.mapM fun c => do
          let w ← self.toExpression c.1
          pure [w, c.2]
        pure (.app .case args.flatten)
  let (e, _) ← synthesis.run {}
  pure e

def expression' : Clause → Except JsError Expr
  | .exp e => pure e
  | .compare lhs op rhs => do
      let l ← self.expression lhs
      pure (.app op.toOp [l, .lit (some rhs)])
  | .isNull c => do
      match ← self.getNullables c with
      | [(true, _)] => do
          let e ← self.expression c
          pure (.app .isNull [e])
      | _ => synthesize E self (.isNull c)
  | .like lhs rhs esc _ cs con => do
      let l ← self.expression lhs
      let upper := decide (rhs = E.J.toUpperCase rhs)
      let function (name : String) : Expr := .app .func [.lit (some (.str (js name))), l]
      let l :=
        if con then (if upper then function "LOWER" else function "UPPER")
        else if !cs then (if upper then function "UPPER" else function "LOWER")
        else l
      let escape := match esc with
        | some (c :: cs) => [.lit (some (.str (c :: cs)))]
        | _ => []
      pure (.app .like ([l, .lit (some (.str rhs))] ++ escape))
  | .case clauses =>
      if (Clause.case clauses).isBoolean then self.expression (.not (.not (.case clauses)))
      else caseExpression E self clauses
  | c => synthesize E self c

/-- The body of every method, given what it can call. -/
def next : Methods where
  expression := expression' E self
  true' := trueMinterms E self
  false' := falseMinterms E self
  null' := nullMinterms E self
  getNullables := getNullables' self
  toExpression := toExpression' self
  rounds := self.rounds + 1

end Methods

/-- Nothing can be called any more. -/
def Methods.exhausted : Methods where
  expression _ := throw .stackOverflow
  true' _ := throw .stackOverflow
  false' _ := throw .stackOverflow
  null' _ := throw .stackOverflow
  getNullables _ := throw .stackOverflow
  toExpression _ := throw .stackOverflow
  rounds := 0

/-- The methods on a stack of depth `n`. -/
def methods (E : Env) : Nat → Methods
  | 0 => Methods.exhausted
  | n + 1 => (methods E n).next E

/-! ## Clauses of an expression -/

/-- `new Clause.Like(lhs, rhs, esc)`. -/
def newLike (J : Js) (self : Methods) (lhs : Clause) (rhs : JsString) (esc : Option JsString) :
    Except JsError Clause := do
  let exp ← self.expression lhs
  let pattern := Like.parseLikePattern rhs esc
  let lhs' := fun args => Clause.exp (arg args 1)
  match exp with
  | .app .func args =>
      if arg args 0 = .lit (some (.str (js "UPPER"))) then
        let same := decide (J.toUpperCase rhs = rhs)
        pure (.like (lhs' args) rhs esc pattern (!same) (!same))
      else if arg args 0 = .lit (some (.str (js "LOWER"))) then
        let same := decide (J.toLowerCase rhs = rhs)
        pure (.like (lhs' args) rhs esc pattern (!same) (!same))
      else pure (.like lhs rhs esc pattern true false)
  | _ => pure (.like lhs rhs esc pattern true false)

/-- The operator without its negation, and whether it was negated. -/
def positiveOp : Op → Op × Bool
  | .notLike => (.like, true)
  | .isNotNull => (.isNull, true)
  | .ne => (.eq, true)
  | .ge => (.lt, true)
  | .le => (.gt, true)
  | op => (op, false)

/-- The expression of a clause that is one, else null. -/
def expOf : Clause → Expr
  | .exp e => e
  | _ => Expr.null

/-- A clause of an operator that is no clause of its own. -/
def opaqueClause (self : Methods) (op : Op) (args : List Clause) : Except JsError Clause := do
  let args ← args.mapM self.expression
  pure (.exp (.app op args))

def compareClause (self : Methods) (op : CompareOp) (args : List Clause) :
    Except JsError Clause :=
  match args with
  | lhs :: rhs :: _ =>
      match expOf rhs with
      | .lit (some v) => pure (.compare lhs op v)
      | _ => opaqueClause self op.toOp args
  | _ => opaqueClause self op.toOp args

def likeClause (J : Js) (self : Methods) (args : List Clause) : Except JsError Clause :=
  match args with
  | lhs :: rhs :: more =>
      match expOf rhs, (more.head?.map expOf).getD Expr.null with
      | .lit (some (.str rhs)), .lit (some (.str esc)) => newLike J self lhs rhs (some esc)
      | .lit (some (.str rhs)), .lit none => newLike J self lhs rhs none
      | _, _ => opaqueClause self .like args
  | _ => opaqueClause self .like args

/-- The clause of an operator that is not negated. -/
def positiveClause (J : Js) (self : Methods) : Op → List Clause → Except JsError Clause
  | .isNull, c :: _ => pure (.isNull c)
  | .isNull, [] => throw .typeError
  | .not, c :: _ => pure (.not c)
  | .not, [] => throw .typeError
  | .or, args => pure (.or args)
  | .and, args => pure (.and args)
  | .case, args => pure (.case args)
  | .like, args => likeClause J self args
  | .gt, args => compareClause self .gt args
  | .lt, args => compareClause self .lt args
  | .eq, args => compareClause self .eq args
  | op, args => opaqueClause self op args

def clauseCallback (J : Js) (self : Methods) : Shape Clause → Except JsError Clause
  | .lit v => pure (.exp (.lit v))
  | .app op args => do
      let clause ← positiveClause J self (positiveOp op).1 args
      pure (if (positiveOp op).2 then .not clause else clause)

def fromExpression (J : Js) (self : Methods) (exp : Expr) : Except JsError Clause :=
  exp.map (clauseCallback J self)

/-! ## `minimize`, `unionDiff`, `covers` -/

variable (E : Env) (n : Nat)

def minimize (expr : Expr) (boolean : Bool) : Except JsError Expr := do
  let expr ← normalize E.J expr
  let synth ← fromExpression E.J (methods E n) expr
  (methods E n).expression (if boolean then .not (.not synth) else synth)

def unionDiff (expr1 expr2 : Expr) : Except JsError (Expr × Expr) := do
  let expr2 ← normalize E.J expr2
  if !expr2.truthy then pure (expr1, Expr.ofBool false)
  else do
    let synth2 ← fromExpression E.J (methods E n) expr2
    if !expr1.truthy then do
      let e ← (methods E n).expression synth2
      pure (e, e)
    else do
      let expr1 ← normalize E.J expr1
      let synth1 ← fromExpression E.J (methods E n) expr1
      let synthesis : SynthM (Expr × Expr) := do
        let expr2Minterms ← (methods E n).true' synth2
        let expr1Minterms ← (methods E n).true' synth1
        let union ← (methods E n).minimize E (expr1Minterms ++ expr2Minterms) []
        let diff ← (methods E n).minimize E
          (E.M.complement (expr1Minterms ++ E.M.complement expr2Minterms)) []
        let u ← (methods E n).toExpression union
        let d ← (methods E n).toExpression diff
        pure (u, d)
      let (res, _) ← synthesis.run {}
      pure res

def covers (expr1 expr2 : Expr) : Except JsError Bool := do
  let expr2 ← normalize E.J expr2
  if !expr2.truthy then pure true
  else do
    let expr1 ← normalize E.J expr1
    if !expr1.isArray then pure expr1.truthy
    else do
      let synt1 ← fromExpression E.J (methods E n) expr1
      let synt2 ← fromExpression E.J (methods E n) expr2
      let synthesis : SynthM Bool := do
        let expr1Minterms ← (methods E n).true' synt1
        let expr2Minterms ← (methods E n).true' synt2
        let notExpr2 ← (methods E n).sanitizeMinterms (E.M.complement expr2Minterms)
        let dc ← (methods E n).getDcSet E (expr2Minterms ++ expr1Minterms)
        let expr1' ← (methods E n).sanitizeMinterms expr1Minterms
        pure (E.M.tautology (notExpr2 ++ dc ++ expr1'))
      let (res, _) ← synthesis.run {}
      pure res

end GenieAcs
