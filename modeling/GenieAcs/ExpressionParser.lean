import GenieAcs.Lib.Peg
import GenieAcs.PathText

/-!
# The text of expressions

`stringify` writes an expression with the parentheses that the levels of its operators
ask for, and `parse` reads it with a grammar that has a rule for each of these levels.
-/

namespace GenieAcs

open Peg

namespace ExpressionParser

/-! ## Characters -/

def isDigit (c : Nat) : Bool := 48 ≤ c ∧ c ≤ 57

def isWord (c : Nat) : Bool :=
  (97 ≤ c ∧ c ≤ 122) ∨ (65 ≤ c ∧ c ≤ 90) ∨ (48 ≤ c ∧ c ≤ 57) ∨ c = 95

/-- `[a-zA-Z0-9_.*-]` -/
def isNameChar (c : Nat) : Bool := isWord c || c = 46 || c = 42 || c = 45

def isLineEnd (c : Nat) : Bool := c = 10 ∨ c = 13 ∨ c = 0x2028 ∨ c = 0x2029

/-- A letter of a regular expression that ignores case. -/
def sameLetter (a b : Nat) : Bool := a = b ∨ (97 ≤ a ∧ a ≤ 122 ∧ b + 32 = a)

def upperAscii (c : Nat) : Nat := if 97 ≤ c ∧ c ≤ 122 then c - 32 else c

abbrev TextParser (α : Type) := Parser Nat α

/-! ## Tokens -/

def symbol (t : JsString) : TextParser Unit := lexeme trimChar (literal (· == ·) t)

def keyword (t : JsString) : TextParser Unit :=
  lexeme trimChar (notFollowedBy (literal sameLetter t) isWord)

def oneOf : List Op → TextParser Op
  | [] => fun _ => none
  | op :: ops => alt (map (fun _ => op) (literal (· == ·) op.name)) (oneOf ops)

def comparisonOperator : TextParser Op := lexeme trimChar (oneOf [.ge, .ne, .le, .eq, .gt, .lt])

/-- `first\s+second`, without regard to case. -/
def twoWords (first second : JsString) : TextParser Unit :=
  andThen (literal sameLetter first) (andThen (span1 trimChar) (literal sameLetter second))

def likeOperator : TextParser Op :=
  lexeme trimChar (notFollowedBy (alt (map (fun _ => .like) (literal sameLetter (js "like")))
    (map (fun _ => .notLike) (twoWords (js "not") (js "like")))) isWord)

def isNullOperator : TextParser Op :=
  lexeme trimChar (notFollowedBy (alt (map (fun _ => .isNull) (twoWords (js "is") (js "null")))
    (map (fun _ => .isNotNull) (andThen (literal sameLetter (js "is"))
      (andThen (span1 trimChar) (twoWords (js "not") (js "null")))))) isWord)

def notOperator : TextParser Op := map (fun _ => .not) (keyword (js "not"))

def andOperator : TextParser Op := map (fun _ => .and) (keyword (js "and"))

def orOperator : TextParser Op := map (fun _ => .or) (keyword (js "or"))

/-- `ESCAPE`, which white space has to follow. -/
def escapeOperator : TextParser Unit :=
  skip (literal sameLetter (js "escape")) (span1 trimChar)

/-! ## Literals -/

def oneChar (c : Nat → Bool) : TextParser JsString
  | [] => none
  | x :: s => if c x then some ([x], s) else none

def optional (p : TextParser JsString) : TextParser JsString := alt p (ret [])

def both (p q : TextParser JsString) : TextParser JsString := bind p fun a => map (a ++ ·) q

/-- `-?(0|[1-9][0-9]*)([.][0-9]+)?([eE][+-]?[0-9]+)?` -/
def numeral : TextParser JsString :=
  both (optional (oneChar (· = 45)))
    (both (alt (oneChar (· = 48))
        (both (oneChar fun c => 49 ≤ c ∧ c ≤ 57) (optional (span1 isDigit))))
      (both (optional (both (oneChar (· = 46)) (span1 isDigit)))
        (optional (both (oneChar fun c => c = 101 ∨ c = 69)
          (both (optional (oneChar fun c => c = 43 ∨ c = 45)) (span1 isDigit))))))

/-- The rest of `"((?:\\.|.)*?)"` behind the first quote. -/
def stringBody : TextParser JsString
  | [] => none
  | 34 :: s => some ([], s)
  | 92 :: c :: s =>
      (if isLineEnd c then none else (stringBody s).map fun r => (92 :: c :: r.1, r.2)).or
        ((stringBody (c :: s)).map fun r => (92 :: r.1, r.2))
  | c :: s => if isLineEnd c then none else (stringBody s).map fun r => (c :: r.1, r.2)

/-- `str.replace(/\\(u[0-9a-fA-F]{4}|[^u])/g, …)` -/
def interpretEscapes : JsString → JsString
  | 92 :: 117 :: h1 :: h2 :: h3 :: h4 :: s =>
      match hexOf h1, hexOf h2, hexOf h3, hexOf h4 with
      | some d1, some d2, some d3, some d4 =>
          (d1 * 4096 + d2 * 256 + d3 * 16 + d4) :: interpretEscapes s
      | _, _, _, _ => 92 :: interpretEscapes (117 :: h1 :: h2 :: h3 :: h4 :: s)
  | 92 :: c :: s =>
      if c = 117 then 92 :: interpretEscapes (c :: s) else unescape c :: interpretEscapes s
  | c :: s => c :: interpretEscapes s
  | [] => []

def stringLit (s : JsString) : Expr := .lit (some (.str s))

/-- One or more times `'([^']*)'`. -/
def stringValueSql : TextParser Expr :=
  map (fun parts => stringLit ((js "'").intercalate parts)) (lexeme trimChar (many1
    (andThen (oneChar (· = 39)) (skip (optional (span1 (· ≠ 39))) (oneChar (· = 39))))))

def stringValueJs : TextParser Expr :=
  map (fun text => stringLit (interpretEscapes text))
    (lexeme trimChar (andThen (oneChar (· = 34)) stringBody))

def nullValue : TextParser Expr := map (fun _ => .null) (keyword (js "null"))

def booleanValue : TextParser Expr :=
  alt (map (fun _ => .ofBool true) (keyword (js "true")))
    (map (fun _ => .ofBool false) (keyword (js "false")))

section

/- `Number` of a text, where it is finite. -/
variable (number : JsString → ℚ)

def numberValue : TextParser Expr :=
  map (fun text => .lit (some (.num (number text))))
    (lexeme trimChar (notFollowedBy numeral isWord))

/-! ## The grammar -/

/- An expression, one level of recursion down. -/
variable (expr : TextParser Expr)

def toParameter : List Expr → Expr
  | [x] => .app .param [x]
  | parts => .app .param [.app .concat parts]

def braces : TextParser Expr := andThen (symbol (js "\x7b")) (skip expr (literal (· == ·) (js "\x7d")))

def parameter : TextParser Expr :=
  map toParameter (lexeme trimChar (many1 (alt (map stringLit (span1 isNameChar)) (braces expr))))

def parentheses : TextParser Expr := andThen (symbol (js "(")) (skip expr (symbol (js ")")))

def expressionList : TextParser (List Expr) := sepBy expr (symbol (js ","))

def funcValue : TextParser Expr :=
  bind (lexeme trimChar (span1 isWord)) fun f =>
    map (fun args => .app .func (stringLit (f.map upperAscii) :: args))
      (andThen (symbol (js "(")) (skip (expressionList expr) (symbol (js ")"))))

def whenPair : TextParser (List Expr) :=
  bind (andThen (keyword (js "when")) expr) fun w =>
    map (fun t => [w, t]) (andThen (keyword (js "then")) expr)

def elseArgs : Option Expr → List Expr
  | none => [.null]
  | some e => [.ofBool true, e]

def caseStatement : TextParser Expr :=
  andThen (keyword (js "case")) (bind (many (whenPair expr)) fun whens =>
    map (fun last => .app .case (whens.flatten ++ elseArgs last))
      (skip (alt (map some (andThen (keyword (js "else")) expr)) (ret none)) (keyword (js "end"))))

def value : TextParser Expr :=
  alt nullValue (alt booleanValue (alt (numberValue number) (alt stringValueSql
    (alt stringValueJs (alt (funcValue expr) (caseStatement expr))))))

/-- An operand is added to a list of operands of the same operator. -/
def combine (acc : Expr) (operand : Op × Expr) : Expr :=
  match acc with
  | .app op args =>
      if op = operand.1 then .app op (args ++ [operand.2]) else .app operand.1 [acc, operand.2]
  | .lit _ => .app operand.1 [acc, operand.2]

def operand (operator : TextParser Op) (next : TextParser Expr) : TextParser (Op × Expr) :=
  bind operator fun op => map (op, ·) next

def binaryLeft (operator : TextParser Op) (next : TextParser Expr) : TextParser Expr :=
  bind next fun first => map (fun rest => rest.foldl combine first) (many (operand operator next))

def unary (operator : TextParser Op) (next : TextParser Expr) : TextParser Expr :=
  alt (bind operator fun op => map (fun e => .app op [e]) next) next

def primary : TextParser Expr := alt (value number expr) (alt (parameter expr) (parentheses expr))

def products : TextParser Expr :=
  binaryLeft (lexeme trimChar (oneOf [.mul, .div, .mod])) (primary number expr)

def sums : TextParser Expr :=
  binaryLeft (lexeme trimChar (oneOf [.add, .sub])) (products number expr)

def valueExpression : TextParser Expr :=
  binaryLeft (lexeme trimChar (oneOf [.concat])) (sums number expr)

def comparison : TextParser Expr :=
  alt (bind (valueExpression number expr) fun p => map (fun o => .app o [p]) isNullOperator)
    (alt (bind (valueExpression number expr) fun p => bind comparisonOperator fun o =>
        map (fun v => .app o [p, v]) (valueExpression number expr))
      (alt (bind (valueExpression number expr) fun a => bind likeOperator fun b =>
          bind (skip (valueExpression number expr) escapeOperator) fun c =>
            map (fun d => .app b [a, c, d]) (valueExpression number expr))
        (bind (valueExpression number expr) fun a => bind likeOperator fun b =>
          map (fun c => .app b [a, c]) (valueExpression number expr))))

def condition : TextParser Expr := alt (comparison number expr) (valueExpression number expr)

def negation : TextParser Expr := unary notOperator (condition number expr)

def conjunction : TextParser Expr := binaryLeft andOperator (negation number expr)

def disjunction : TextParser Expr := binaryLeft orOperator (conjunction number expr)

def expression : TextParser Expr := fun s =>
  lexeme trimChar (disjunction number expr) (s.dropWhile trimChar)

/-- An exception is `none`. -/
def parse (str : JsString) : Option Expr :=
  if str = [] then some .null
  else (fix (expression number) (str.length + 1) str).bind fun r =>
    if r.2 = [] then some r.1 else none

end

/-! ## Printing -/

def opLevel : Op → Option ℕ
  | .or => some 10
  | .and => some 11
  | .not => some 12
  | .eq | .ne | .gt | .ge | .lt | .le | .like | .notLike | .isNull | .isNotNull => some 20
  | .concat => some 30
  | .add | .sub => some 31
  | .mul | .div | .mod => some 32
  | .case | .func | .param => none

/-- An operator that is not above the level around it is put in parentheses. -/
def wrap (op : Op) (level : ℕ) (e : JsString) : JsString :=
  if (opLevel op).any (· ≤ level) then js "(" ++ e ++ js ")" else e

/-- A name in a template literal. -/
def nameText : Expr → JsString
  | .lit (some (.str s)) => s
  | _ => []

section

variable (J : Js)

mutual

def stringify : Expr → ℕ → JsString
  | .lit v, _ => jsonValue J v
  | .app op args, level => wrap op level (appText op args)

def appText (op : Op) (args : List Expr) : JsString :=
  match op with
  | .func => callText args
  | .param => paramText args
  | .case => (js " ").intercalate (js "CASE" :: caseParts args)
  | op => operatorText op args

def callText : List Expr → JsString
  | [] => []
  | f :: args => nameText f ++ js "(" ++ (js ", ").intercalate (texts 0 args) ++ js ")"

def paramText : List Expr → JsString
  | [] => []
  | e :: _ =>
      match e with
      | .lit (some (.str s)) => s
      | .app .concat parts => partTexts parts
      | e => js "\x7b" ++ stringify e 0 ++ js "\x7d"

def partTexts : List Expr → JsString
  | [] => []
  | e :: parts =>
      (match e with
        | .lit (some (.str s)) => s
        | e => js "\x7b" ++ stringify e 0 ++ js "\x7d") ++ partTexts parts

/-- What stands between `CASE` and the end; a literal that is true begins the last part. -/
def caseParts : List Expr → List JsString
  | w :: t :: rest =>
      if w.isArray = false ∧ w.truthy = true then
        (if t = .null then [] else [js "ELSE", stringify t 0]) ++ [js "END"]
      else [js "WHEN", stringify w 0, js "THEN", stringify t 0] ++ caseParts rest
  | _ => [js "END"]

def operatorText (op : Op) : List Expr → JsString
  | [] => []
  | e :: es =>
      match op with
      | .isNull | .isNotNull => stringify e 20 ++ js " " ++ op.name
      | .like | .notLike => stringify e 20 ++ js " " ++ op.name ++ js " " ++ likeText es
      | .not => js "NOT " ++ stringify e 11
      | op => (js " " ++ op.name ++ js " ").intercalate
          (stringify e ((opLevel op).getD 0 - 1) :: texts ((opLevel op).getD 0) es)

def likeText : List Expr → JsString
  | [] => []
  | [b] => stringify b 20
  | b :: c :: _ =>
      if c.truthy then stringify b 20 ++ js " ESCAPE " ++ stringify c 20 else stringify b 20

def texts (level : ℕ) : List Expr → List JsString
  | [] => []
  | e :: es => stringify e level :: texts level es

end

end

/-! ## The recursion ends -/

theorem reads_symbol {t : JsString} (ht : t ≠ []) : Reads (symbol t) :=
  (reads_literal _ ht).lexeme trimChar

theorem reads_keyword {t : JsString} (ht : t ≠ []) : Reads (keyword t) :=
  ((reads_literal _ ht).notFollowedBy isWord).lexeme trimChar

theorem keeps_oneOf (ops : List Op) : Keeps (oneOf ops) := by
  induction ops with
  | nil =>
      intro s op r h
      cases h
  | cons op ops ih =>
      have hop : op.name ≠ [] := by cases op <;> decide
      exact ((reads_literal _ hop).keeps.map fun _ => op).alt ih

theorem reads_twoWords {first : JsString} (hfirst : first ≠ []) (second : JsString) :
    Reads (twoWords first second) :=
  (reads_literal _ hfirst).bind fun _ => (reads_span1 _).keeps.bind fun _ => keeps_literal _ second

theorem keeps_likeOperator : Keeps likeOperator :=
  ((((reads_literal _ (by decide)).map fun _ => Op.like).alt
    ((reads_twoWords (by decide) _).map fun _ => Op.notLike)).notFollowedBy isWord).keeps.lexeme
      trimChar

theorem keeps_isNullOperator : Keeps isNullOperator :=
  ((((reads_twoWords (by decide) _).map fun _ => Op.isNull).alt
    (((reads_literal _ (by decide)).bind fun _ => (reads_span1 _).keeps.bind fun _ =>
      (reads_twoWords (by decide) _).keeps).map fun _ => Op.isNotNull)).notFollowedBy
        isWord).keeps.lexeme trimChar

theorem keeps_escapeOperator : Keeps escapeOperator :=
  (keeps_literal _ _).skip (reads_span1 _).keeps

theorem keeps_oneChar (c : Nat → Bool) : Keeps (oneChar c) := fun s t r h => by
  cases s with
  | nil => cases h
  | cons x s =>
      rw [oneChar] at h
      split_ifs at h
      cases h
      exact Nat.le_succ _

theorem keeps_optional {p : TextParser JsString} (h : Keeps p) : Keeps (optional p) :=
  h.alt (keeps_ret [])

theorem keeps_both {p q : TextParser JsString} (hp : Keeps p) (hq : Keeps q) : Keeps (both p q) :=
  hp.bind fun a => hq.map (a ++ ·)

theorem keeps_numeral : Keeps numeral := by
  have hspan := (reads_span1 isDigit).keeps
  have hinteger := (keeps_oneChar (· = 48)).alt
    (keeps_both (keeps_oneChar fun c => 49 ≤ c ∧ c ≤ 57) (keeps_optional hspan))
  have hfraction := keeps_optional (keeps_both (keeps_oneChar (· = 46)) hspan)
  have hexponent := keeps_optional (keeps_both (keeps_oneChar fun c => c = 101 ∨ c = 69)
    (keeps_both (keeps_optional (keeps_oneChar fun c => c = 43 ∨ c = 45)) hspan))
  exact keeps_both (keeps_optional (keeps_oneChar (· = 45)))
    (keeps_both hinteger (keeps_both hfraction hexponent))

theorem stringBody_cons {c : Nat} {s : JsString} (hquote : c ≠ 34) (hslash : c ≠ 92 ∨ s = []) :
    stringBody (c :: s)
      = if isLineEnd c then none else (stringBody s).map fun r => (c :: r.1, r.2) := by
  rw [stringBody]
  · exact hquote
  · rintro d t rfl rfl
    simp at hslash

theorem keeps_stringBody : Keeps stringBody := by
  intro s t r h
  induction s using stringBody.induct generalizing t with
  | case1 => cases h
  | case2 s =>
      cases h
      exact Nat.le_succ _
  | case3 c s ih ih' =>
      rw [stringBody] at h
      rcases Option.or_eq_some_iff.mp h with h | ⟨-, h⟩
      · split_ifs at h
        obtain ⟨x, hx, heq⟩ := Option.map_eq_some_iff.mp h
        cases heq
        exact (ih x.1 hx).trans ((Nat.le_succ _).trans (Nat.le_succ _))
      · obtain ⟨x, hx, heq⟩ := Option.map_eq_some_iff.mp h
        cases heq
        exact (ih' x.1 hx).trans (Nat.le_succ _)
  | case4 c s hquote hslash hend =>
      rw [stringBody, if_pos hend] at h
      · cases h
      · exact hquote
      · exact hslash
  | case5 c s hquote hslash hend ih =>
      rw [stringBody, if_neg hend] at h
      · obtain ⟨x, hx, heq⟩ := Option.map_eq_some_iff.mp h
        cases heq
        exact (ih x.1 hx).trans (Nat.le_succ _)
      · exact hquote
      · exact hslash

theorem guarded_braces : Guarded braces :=
  .behind (reads_symbol (by decide)) fun _ => Local.id.skip (keeps_literal _ _)

theorem guarded_parameter : Guarded parameter := by
  have hpart : Guarded fun e => alt (map stringLit (span1 isNameChar)) (braces e) :=
    (Guarded.const ((reads_span1 isNameChar).keeps.map stringLit)).alt guarded_braces
  exact ((hpart.bind fun a => hpart.many.map (a :: ·)).lexeme trimChar).map toParameter

theorem guarded_parentheses : Guarded parentheses :=
  .behind (reads_symbol (by decide)) fun _ => Local.id.skip (reads_symbol (by decide)).keeps

theorem guarded_funcValue : Guarded funcValue :=
  .behind ((reads_span1 isWord).lexeme trimChar) fun f =>
    ((Local.const (reads_symbol (by decide)).keeps).bind fun _ =>
      (Local.id.sepBy (reads_symbol (by decide)).keeps).skip (reads_symbol (by decide)).keeps).map _

theorem local_whenPair : Local whenPair :=
  ((Local.const (reads_keyword (by decide)).keeps).bind fun _ => .id).bind fun w =>
    ((Local.const (reads_keyword (by decide)).keeps).bind fun _ => .id).map fun t => [w, t]

theorem guarded_caseStatement : Guarded caseStatement := by
  have hlast : Local fun e : TextParser Expr =>
      alt (map some (andThen (keyword (js "else")) e)) (ret none) :=
    (((Local.const (reads_keyword (by decide)).keeps).bind fun _ => .id).map some).alt
      (.const (keeps_ret none))
  have hcase : Reads (keyword (js "case")) := reads_keyword (by decide)
  have hend : Reads (keyword (js "end")) := reads_keyword (by decide)
  have hparts : Local fun e => bind (many (whenPair e)) fun whens =>
      map (fun last => Expr.app .case (whens.flatten ++ elseArgs last))
        (skip (alt (map some (andThen (keyword (js "else")) e)) (ret none))
          (keyword (js "end"))) :=
    local_whenPair.many.bind fun whens => (hlast.skip hend.keeps).map _
  exact .behind hcase fun _ => hparts

section

variable (number : JsString → ℚ)

theorem guarded_value : Guarded (value number) := by
  have hnull : Keeps nullValue := (reads_keyword (by decide)).keeps.map _
  have hboolean : Keeps booleanValue :=
    ((reads_keyword (by decide)).keeps.map _).alt ((reads_keyword (by decide)).keeps.map _)
  have hnumber : Keeps (numberValue number) :=
    ((keeps_numeral.notFollowedBy isWord).lexeme trimChar).map _
  have hquoted : Keeps (andThen (oneChar (· = 39))
      (skip (optional (span1 (· ≠ 39))) (oneChar (· = 39)))) :=
    (keeps_oneChar _).bind fun _ => (keeps_optional (reads_span1 _).keeps).bind fun a =>
      (keeps_oneChar _).map _
  have hsql : Keeps stringValueSql :=
    ((hquoted.bind fun a => (keeps_many _).map (a :: ·)).lexeme trimChar).map _
  have hjs : Keeps stringValueJs :=
    (((keeps_oneChar _).bind fun _ => keeps_stringBody).lexeme trimChar).map _
  exact (Guarded.const hnull).alt ((Guarded.const hboolean).alt ((Guarded.const hnumber).alt
    ((Guarded.const hsql).alt ((Guarded.const hjs).alt
      (guarded_funcValue.alt guarded_caseStatement)))))

theorem guarded_binaryLeft {operator : TextParser Op} {g : TextParser Expr → TextParser Expr}
    (hop : Keeps operator) (hg : Guarded g) : Guarded fun e => binaryLeft operator (g e) :=
  hg.bind fun _ => ((Guarded.const hop).bind fun op => hg.map (op, ·)).many.map _

theorem guarded_valueExpression : Guarded (valueExpression number) := by
  have hprimary : Guarded (primary number) :=
    (guarded_value number).alt (guarded_parameter.alt guarded_parentheses)
  have hproducts : Guarded (products number) :=
    guarded_binaryLeft ((keeps_oneOf _).lexeme trimChar) hprimary
  have hsums : Guarded (sums number) :=
    guarded_binaryLeft ((keeps_oneOf _).lexeme trimChar) hproducts
  exact guarded_binaryLeft ((keeps_oneOf _).lexeme trimChar) hsums

theorem guarded_comparison : Guarded (comparison number) := by
  have hvalue := guarded_valueExpression number
  have hlike : Guarded fun _ : TextParser Expr => likeOperator := .const keeps_likeOperator
  exact (hvalue.bind fun p => .const (keeps_isNullOperator.map _)).alt
    ((hvalue.bind fun p => (Guarded.const ((keeps_oneOf _).lexeme trimChar)).bind fun o =>
      hvalue.map _).alt
    ((hvalue.bind fun a => hlike.bind fun b =>
      (hvalue.skip keeps_escapeOperator).bind fun c => hvalue.map _).alt
    (hvalue.bind fun a => hlike.bind fun b => hvalue.map _)))

theorem guarded_expression : Guarded (expression number) := by
  have hcondition : Guarded (condition number) :=
    (guarded_comparison number).alt (guarded_valueExpression number)
  have hnot : Keeps notOperator := (reads_keyword (by decide)).keeps.map _
  have hnegation : Guarded (negation number) :=
    ((Guarded.const hnot).bind fun op => hcondition.map _).alt hcondition
  have hconjunction : Guarded (conjunction number) :=
    guarded_binaryLeft ((reads_keyword (by decide)).keeps.map _) hnegation
  have hdisjunction : Guarded fun e => lexeme trimChar (disjunction number e) :=
    (guarded_binaryLeft ((reads_keyword (by decide)).keeps.map _) hconjunction).lexeme trimChar
  have hdrop : ∀ s : JsString, (s.dropWhile trimChar).length ≤ s.length := fun s =>
    (List.dropWhile_suffix trimChar).length_le
  exact {
    keeps := fun e he s a r h => (hdisjunction.keeps e he _ a r h).trans (hdrop s)
    agree := fun n e e' he he' hn s hs =>
      hdisjunction.agree n e e' he he' hn _ ((hdrop s).trans_lt hs) }

/-- As many levels of recursion as the text is long are as good as any. -/
theorem fix_expression {n m : ℕ} {s : JsString} (hn : s.length < n) (hm : s.length < m) :
    fix (expression number) n s = fix (expression number) m s :=
  (guarded_expression number).fix_eq hn hm

end

end ExpressionParser

end GenieAcs
