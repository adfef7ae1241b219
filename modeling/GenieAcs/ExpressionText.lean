import GenieAcs.ExpressionPhrases

/-!
# Printed expressions are read back

The grammar has a rule for each level of operators, and `stringify` puts in parentheses what
is not above the level around it. A phrase is read back where nothing that follows goes on with
it; a first operand of the same level, which has no parentheses, is read together with the
operands that follow.
-/

namespace GenieAcs

open Peg

namespace ExpressionParser

variable {number : JsString → ℚ} {J : Js} {e : Expr} {r : JsString} {k : ℕ}

/-! ## Expressions that are read back -/

/-- The level of the operator of an expression; there is no other above 32. -/
def exprLevel : Expr → ℕ
  | .lit _ => 33
  | .app op _ => (opLevel op).getD 33

theorem ten_le_exprLevel (e : Expr) : 10 ≤ exprLevel e ∧ exprLevel e ≤ 33 := by
  cases e with
  | lit v =>
      rw [exprLevel]
      omega
  | app op args => cases op <;> simp [exprLevel, opLevel]

theorem stringify_app (op : Op) (args : List Expr) :
    stringify J (.app op args) 0 = appText J op args := by
  rw [stringify, wrap, if_neg]
  cases op <;> simp [opLevel]

theorem stringify_eq (e : Expr) {level : ℕ} (hlevel : level < 33) :
    stringify J e level
      = if exprLevel e ≤ level then js "(" ++ stringify J e 0 ++ js ")" else stringify J e 0 := by
  cases e with
  | lit v =>
      rw [if_neg (by show ¬ 33 ≤ level; omega), stringify, stringify]
  | app op args =>
      rw [stringify_app, stringify, wrap, exprLevel]
      cases hop : opLevel op with
      | none => rw [if_neg (by simp), if_neg (by rw [Option.getD_none]; omega)]
      | some k => simp

/-- A literal whose text is read as it. -/
def LiteralText (number : JsString → ℚ) (J : Js) : Option Value → Prop
  | some (.num q) => NumberText number (J.numberToString q) q
  | some (.str s) => ∀ c ∈ s, c ≠ 0x2028 ∧ c ≠ 0x2029
  | _ => True

/-- An expression that the parser could have given and that is printed as the grammar asks for:
no operator is the first operand of itself or of one that does not associate, no condition of a
`CASE` is a literal that is true, and its last part is not null. -/
inductive Printable (number : JsString → ℚ) (J : Js) : Expr → Prop where
  | lit {v : Option Value} : LiteralText number J v → Printable number J (.lit v)
  | parameter {parts : List Expr} : Parts parts → (∀ qs, parts ≠ [.app .concat qs]) →
      (∀ p ∈ parts, asString p = none → Printable number J p) →
      Printable number J (toParameter parts)
  | call {f : JsString} {args : List Expr} : FunctionName f →
      (∀ a ∈ args, Printable number J a) → Printable number J (.app .func (stringLit f :: args))
  | case {whens : List (Expr × Expr)} {last : Option Expr} : (∀ p ∈ whens, Condition p.1) →
      last ≠ some .null → (∀ p ∈ whens, Printable number J p.1) →
      (∀ p ∈ whens, Printable number J p.2) → (∀ e ∈ last, Printable number J e) →
      Printable number J (.app .case (caseArgs whens last))
  | chain {op : Op} {a : Expr} {args : List Expr} :
      op ∈ [.or, .and, .concat, .add, .sub, .mul, .div, .mod] → args ≠ [] →
      (∀ as, a ≠ .app op as) → Printable number J a → (∀ b ∈ args, Printable number J b) →
      Printable number J (.app op (a :: args))
  | not {a : Expr} : exprLevel a ≠ 12 → Printable number J a → Printable number J (.app .not [a])
  | comparison {op : Op} {a b : Expr} : op ∈ [.eq, .ne, .gt, .ge, .lt, .le] → exprLevel a ≠ 20 →
      Printable number J a → Printable number J b → Printable number J (.app op [a, b])
  | like {op : Op} {a b : Expr} : op ∈ [.like, .notLike] →
      Printable number J a → Printable number J b → Printable number J (.app op [a, b])
  | escape {op : Op} {a b c : Expr} : op ∈ [.like, .notLike] → c.truthy = true →
      Printable number J a → Printable number J b → Printable number J c →
      Printable number J (.app op [a, b, c])
  | isNull {op : Op} {a : Expr} : op ∈ [.isNull, .isNotNull] →
      Printable number J a → Printable number J (.app op [a])

/-! ## Reading back -/

/-- The levels of the operators that associate. -/
def chainLevels : List ℕ := [10, 11, 30, 31, 32]

/-- The operators of one of these levels. -/
def levelOperator (k : ℕ) : TextParser Op :=
  if k = 10 then orOperator
  else if k = 11 then andOperator
  else if k = 30 then lexeme trimChar (oneOf [.concat])
  else if k = 31 then lexeme trimChar (oneOf [.add, .sub])
  else lexeme trimChar (oneOf [.mul, .div, .mod])

theorem phrase_chain (number : JsString → ℚ) (expr : TextParser Expr) (hk : k ∈ chainLevels) :
    phrase number expr k = binaryLeft (levelOperator k) (phrase number expr (k + 1)) := by
  simp only [chainLevels, List.mem_cons, List.not_mem_nil, or_false] at hk
  rcases hk with rfl | rfl | rfl | rfl | rfl <;> rfl

/-- What is shown of an expression by induction. -/
structure ReadBack (number : JsString → ℚ) (J : Js) (e : Expr) : Prop where
  start : ∃ c t, stringify J e 0 = c :: t ∧ trimChar c = false
  notNot : 12 < exprLevel e → ∀ rest, Boundary rest →
    notOperator (stringify J e 0 ++ rest) = none
  reads : ∀ n, sizeOf e ≤ n → ∀ rest, Follows (exprLevel e) rest →
    phrase number (fix (expression number) n) (exprLevel e) (stringify J e 0 ++ rest)
      = some (e, trimmed rest)
  /-- More operands of the same level may follow. -/
  chain : exprLevel e ∈ chainLevels → ∀ n, sizeOf e ≤ n → ∀ rest l r,
    Follows (exprLevel e + 1) rest →
    many (operand (levelOperator (exprLevel e))
      (phrase number (fix (expression number) n) (exprLevel e + 1))) (trimmed rest) = some (l, r) →
    phrase number (fix (expression number) n) (exprLevel e) (stringify J e 0 ++ rest)
      = some (l.foldl combine e, r)

section

variable {n level : ℕ} {rest : JsString}

theorem ReadBack.readAs (h : ReadBack number J e) (hn : sizeOf e < n) :
    ReadAs J (fix (expression number) n) e := by
  intro rest hrest
  obtain ⟨n, rfl⟩ := Nat.exists_eq_succ_of_ne_zero (Nat.ne_zero_of_lt hn)
  obtain ⟨c, t, htext, hc⟩ := h.start
  have hstart : (stringify J e 0 ++ rest).dropWhile trimChar = stringify J e 0 ++ rest := by
    rw [htext, List.cons_append, List.dropWhile_cons, hc]
    rfl
  have hlevel := (ten_le_exprLevel e).1
  have hread := phrase_mono hlevel (h.reads n (Nat.le_of_lt_succ hn) rest (hrest.mono hlevel))
    hrest.stops fun hlt => h.notNot hlt rest hrest.boundary
  show lexeme trimChar (disjunction number (fix (expression number) n))
    ((stringify J e 0 ++ rest).dropWhile trimChar) = _
  have hlexeme : lexeme trimChar (phrase number (fix (expression number) n) 10)
      (stringify J e 0 ++ rest) = some (e, trimmed (trimmed rest)) := lexeme_some hread
  rw [hstart]
  exact hlexeme.trans (by rw [trimmed, List.dropWhile_idempotent])

theorem ReadBack.start_level (h : ReadBack number J e) (hlevel : level < 33) :
    ∃ c t, stringify J e level = c :: t ∧ trimChar c = false := by
  rw [stringify_eq e hlevel]
  split_ifs
  · exact ⟨40, _, rfl, rfl⟩
  · exact h.start

theorem ReadBack.start_stringify (h : ReadBack number J e) (hlevel : level < 33) :
    trimmed (stringify J e level ++ rest) = stringify J e level ++ rest := by
  obtain ⟨c, t, htext, hc⟩ := h.start_level hlevel
  rw [htext]
  exact trimmed_cons hc _

theorem ReadBack.notOperator_none (h : ReadBack number J e) (hlevel : level < 33)
    (hnot : 12 ≤ level) (hrest : Boundary rest) :
    notOperator (stringify J e level ++ rest) = none := by
  rw [stringify_eq e hlevel]
  split_ifs with hwrap
  · rfl
  · exact h.notNot (by omega) rest hrest

/-- An operand that is printed at a level is read above it. -/
theorem ReadBack.operand (h : ReadBack number J e) (level k : ℕ) (hlevel : level < 33)
    (hn : sizeOf e < n) (hk : k ≤ 33) (hor : exprLevel e ≤ level ∨ k ≤ exprLevel e)
    (hrest : Follows k rest) : phrase number (fix (expression number) n) k (stringify J e level ++ rest)
      = some (e, trimmed rest) := by
  rw [stringify_eq e hlevel]
  split_ifs with hwrap
  · have hread : primary number (fix (expression number) n)
        (js "(" ++ stringify J e 0 ++ js ")" ++ rest) = some (e, trimmed rest) :=
      primary_parentheses (skipsSpace_fix number n) (h.readAs hn) rest
    exact phrase_mono (j := 33) hk hread hrest.stops fun _ => rfl
  · have hk := hor.resolve_left hwrap
    exact phrase_mono hk (h.reads n hn.le rest (hrest.mono hk)) hrest.stops fun hlt =>
      h.notNot hlt rest hrest.boundary

end

/-! ## Operators that associate -/

/-- The operators that take a list of operands. -/
def chainOps : List Op := [.or, .and, .concat, .add, .sub, .mul, .div, .mod]

theorem lt_of_opLevel {op : Op} (hk : opLevel op = some k) : k < 33 := by
  cases op
  all_goals cases hk
  all_goals omega

theorem opLevel_of_mem_chainOps {op : Op} (hop : op ∈ chainOps) :
    ∃ k ∈ chainLevels, opLevel op = some k := by
  revert op
  decide

theorem levelOperator_some {op : Op} (hop : op ∈ chainOps) (hk : opLevel op = some k)
    (t : JsString) : levelOperator k (op.name ++ js " " ++ t) = some (op, trimmed t) := by
  simp only [chainOps, List.mem_cons, List.not_mem_nil, or_false] at hop
  rcases hop with rfl | rfl | rfl | rfl | rfl | rfl | rfl | rfl
  all_goals
    cases hk
    rfl

theorem trimmed_operator (op : Op) (t : JsString) :
    trimmed (js " " ++ op.name ++ t) = op.name ++ t := by
  cases op <;> rfl

theorem Stops.levelOperator (h : Stops k r) (hk : k ∈ chainLevels) : levelOperator k r = none := by
  simp only [chainLevels, List.mem_cons, List.not_mem_nil, or_false] at hk
  rcases hk with rfl | rfl | rfl | rfl | rfl
  · exact h.or le_rfl
  · exact h.and le_rfl
  · exact h.concat le_rfl
  · exact h.add le_rfl
  · exact h.mul le_rfl

/-- The operands behind the first one. -/
def moreOperands (J : Js) (op : Op) (k : ℕ) (args : List Expr) (rest : JsString) : JsString :=
  ((texts J k args).map (js " " ++ op.name ++ js " " ++ ·)).flatten ++ rest

theorem moreOperands_cons (op : Op) (a : Expr) (args : List Expr) (rest : JsString) :
    moreOperands J op k (a :: args) rest
      = js " " ++ op.name ++ (js " " ++ (stringify J a k ++ moreOperands J op k args rest)) := by
  rw [moreOperands, texts, List.map_cons, List.flatten_cons, moreOperands]
  simp only [List.append_assoc]

theorem stringify_chain {op : Op} (hop : op ∈ chainOps) (hk : opLevel op = some k) (a : Expr)
    (args : List Expr) (rest : JsString) :
    stringify J (.app op (a :: args)) 0 ++ rest
      = stringify J a (k - 1) ++ moreOperands J op k args rest := by
  have htext : appText J op (a :: args) = (js " " ++ op.name ++ js " ").intercalate
      (stringify J a (k - 1) :: texts J k args) := by
    simp only [chainOps, List.mem_cons, List.not_mem_nil, or_false] at hop
    rcases hop with rfl | rfl | rfl | rfl | rfl | rfl | rfl | rfl
    all_goals
      cases hk
      rw [appText, operatorText] <;> simp [opLevel]
  rw [stringify_app, htext, intercalate_cons, List.append_assoc, moreOperands]

theorem follows_moreOperands_cons {op : Op} (hop : op ∈ chainOps) (hk : opLevel op = some k)
    (a : Expr) (args : List Expr) (rest : JsString) :
    Follows (k + 1) (moreOperands J op k (a :: args) rest) := by
  have hnot : op ≠ .not := by
    rintro rfl
    exact absurd hop (by decide)
  rw [moreOperands_cons]
  exact follows_operator (by rw [hk]; simp) hnot _

theorem follows_moreOperands {op : Op} (hop : op ∈ chainOps) (hk : opLevel op = some k)
    (args : List Expr) {rest : JsString} (hrest : Follows (k + 1) rest) :
    Follows (k + 1) (moreOperands J op k args rest) := by
  cases args with
  | nil =>
      rw [moreOperands, texts]
      exact hrest
  | cons a args => exact follows_moreOperands_cons hop hk a args rest

/-- An operand is read behind each operator. -/
theorem many_operands {op : Op} (hop : op ∈ chainOps) (hk : opLevel op = some k) {n : ℕ}
    {args : List Expr} (hargs : ∀ a ∈ args, ReadBack number J a ∧ sizeOf a < n)
    {rest : JsString} (hrest : Follows (k + 1) rest) {l : List (Op × Expr)}
    (hmore : many (operand (levelOperator k) (phrase number (fix (expression number) n) (k + 1)))
      (trimmed rest) = some (l, r)) :
    many (operand (levelOperator k) (phrase number (fix (expression number) n) (k + 1)))
      (trimmed (moreOperands J op k args rest)) = some (args.map (op, ·) ++ l, r) := by
  have hlevel := lt_of_opLevel hk
  induction args with
  | nil =>
      rw [moreOperands, texts]
      exact hmore
  | cons a args ih =>
      obtain ⟨hread, hsize⟩ := hargs a List.mem_cons_self
      have hih := ih fun b hb => hargs b (List.mem_cons_of_mem _ hb)
      have hfollows := follows_moreOperands (J := J) hop hk args hrest
      rw [moreOperands_cons]
      generalize moreOperands J op k args rest = more at hih hfollows
      have hoperator := levelOperator_some hop hk (stringify J a k ++ more)
      have hoperand := hread.operand k (k + 1) hlevel hsize (by omega) (by omega) hfollows
      rw [trimmed_operator, ← List.append_assoc]
      refine many_some (a := (op, a)) ((bind_some hoperator).trans (map_some ?_)) ?_ hih
      · rw [hread.start_stringify hlevel, hoperand]
      · have hlength := length_trimmed more
        simp only [List.length_append]
        rw [show (js " ").length = 1 from rfl]
        omega

/-- The operands of one operator make one expression. -/
theorem foldl_combine {op : Op} {a : Expr} {args : List Expr} (hargs : args ≠ [])
    (ha : ∀ as, a ≠ .app op as) :
    (args.map (op, ·)).foldl combine a = .app op (a :: args) := by
  have hrest : ∀ (as bs : List Expr),
      (bs.map (op, ·)).foldl combine (.app op as) = .app op (as ++ bs) := by
    intro as bs
    induction bs generalizing as with
    | nil => simp
    | cons b bs ih =>
        rw [List.map_cons, List.foldl_cons, combine, if_pos rfl, ih]
        simp
  obtain ⟨b, bs, rfl⟩ := List.exists_cons_of_ne_nil hargs
  have hfirst : combine a (op, b) = .app op [a, b] := by
    cases a with
    | lit v => rfl
    | app op' as =>
        have hne : op' ≠ op := by
          rintro rfl
          exact ha as rfl
        rw [combine, if_neg hne]
  rw [List.map_cons, List.foldl_cons, hfirst, hrest]
  rfl

section

variable {op : Op} {a : Expr} {args : List Expr}

theorem sizeOf_lt_of_mem {b : Expr} (hb : b ∈ args) : sizeOf b < sizeOf (Expr.app op args) := by
  have hlt := List.sizeOf_lt_of_mem hb
  simp only [Expr.app.sizeOf_spec]
  omega

/-- The first operand is read with the operands behind it. -/
theorem phrase_chain_some (hop : op ∈ chainOps) (hk : opLevel op = some k)
    (hargs : args ≠ []) (hne : ∀ as, a ≠ .app op as) {n : ℕ}
    (hn : sizeOf (Expr.app op (a :: args)) ≤ n) (ha : ReadBack number J a) (hread : ∀ b ∈ args, ReadBack number J b)
    {rest : JsString} (hrest : Follows (k + 1) rest) {l : List (Op × Expr)}
    (hmore : many (operand (levelOperator k) (phrase number (fix (expression number) n) (k + 1)))
      (trimmed rest) = some (l, r)) :
    phrase number (fix (expression number) n) k (stringify J (.app op (a :: args)) 0 ++ rest)
      = some (l.foldl combine (.app op (a :: args)), r) := by
  obtain ⟨j, hchain, heq⟩ := opLevel_of_mem_chainOps hop
  obtain rfl := Option.some.inj (hk.symm.trans heq)
  have hlevel := lt_of_opLevel hk
  have hsize : ∀ b ∈ a :: args, sizeOf b < n := fun b hb => (sizeOf_lt_of_mem hb).trans_le hn
  have hmany := many_operands (J := J) hop hk (fun b hb => ⟨hread b hb, hsize b
    (List.mem_cons_of_mem _ hb)⟩) hrest hmore
  have hfollows := follows_moreOperands (J := J) hop hk args hrest
  rw [stringify_chain hop hk, ← foldl_combine hargs hne, ← List.foldl_append]
  generalize moreOperands J op k args rest = more at hmany hfollows
  by_cases hsame : exprLevel a = k
  · -- the operand is of the level of the operator, without parentheses
    have ha := ha.chain (hsame ▸ hchain) n (hsize a List.mem_cons_self).le more
    have hpos := (ten_le_exprLevel a).1
    rw [hsame] at ha
    rw [stringify_eq a (by omega), if_neg (by omega)]
    exact ha _ _ hfollows hmany
  · have hfirst := ha.operand (k - 1) (k + 1) (by omega)
      (hsize a List.mem_cons_self) (by omega) (by omega) hfollows
    rw [phrase_chain number _ hchain]
    exact (bind_some hfirst).trans (map_some hmany)

theorem readBack_chain (hop : op ∈ chainOps) (hargs : args ≠ []) (hne : ∀ as, a ≠ .app op as)
    (ha : ReadBack number J a) (hread : ∀ b ∈ args, ReadBack number J b) :
    ReadBack number J (.app op (a :: args)) := by
  obtain ⟨k, hchain, hk⟩ := opLevel_of_mem_chainOps hop
  have hlevel := lt_of_opLevel hk
  have hexpr : exprLevel (.app op (a :: args)) = k := by
    rw [exprLevel, hk, Option.getD_some]
  constructor
  · obtain ⟨c, t, htext, hc⟩ := ha.start_level (show k - 1 < 33 by omega)
    have happ := stringify_chain (J := J) hop hk a args []
    rw [List.append_nil, htext] at happ
    exact ⟨c, _, happ, hc⟩
  · intro hlt rest hrest
    obtain ⟨b, args, rfl⟩ := List.exists_cons_of_ne_nil hargs
    have hfollows := follows_moreOperands_cons (J := J) hop hk b args rest
    rw [stringify_chain hop hk]
    exact ha.notOperator_none (by omega) (by omega) hfollows.boundary
  · intro n hn rest hrest
    rw [hexpr] at hrest ⊢
    have hnone := hrest.stops.levelOperator hchain
    exact phrase_chain_some hop hk hargs hne hn ha hread (hrest.mono (Nat.le_succ k))
      (operand_none hnone)
  · intro _ n hn rest l r hrest hmore
    rw [hexpr] at hrest hmore ⊢
    exact phrase_chain_some hop hk hargs hne hn ha hread hrest hmore

end

/-! ## Values -/

/-- An expression whose text is a primary. -/
theorem readBack_primary (hlevel : exprLevel e = 33)
    (hstart : ∃ c t, stringify J e 0 = c :: t ∧ trimChar c = false)
    (hnot : ∀ rest, Boundary rest → notOperator (stringify J e 0 ++ rest) = none)
    (hread : ∀ n, sizeOf e ≤ n → ∀ rest, Boundary rest →
      primary number (fix (expression number) n) (stringify J e 0 ++ rest)
        = some (e, trimmed rest)) : ReadBack number J e where
  start := hstart
  notNot _ := hnot
  reads n hn rest hrest := by
    rw [hlevel]
    exact hread n hn rest hrest.boundary
  chain h := by
    rw [hlevel] at h
    exact absurd h (by decide)

theorem stringify_lit (v : Option Value) : stringify J (.lit v) 0 = jsonValue J v := by
  rw [stringify]

/-- A number begins with a digit or a sign, which no word does. -/
theorem NumberText.start {t : JsString} {q : ℚ} (h : NumberText number t q) :
    (∃ c u, t = c :: u ∧ trimChar c = false) ∧ ∀ rest, notOperator (t ++ rest) = none := by
  have hhead := numeral_head h.1
  cases t with
  | nil => cases hhead
  | cons c u =>
      have hc : isDigit c = true ∨ c = 45 := by simpa using hhead
      simp only [isDigit, decide_eq_true_eq] at hc
      have hletter : sameLetter 110 c = false := by
        simp only [sameLetter, decide_eq_false_iff_not]
        omega
      refine ⟨⟨c, u, rfl, ?_⟩, fun rest => map_none (lexeme_none (word_none hletter))⟩
      simp only [trimChar, decide_eq_false_iff_not]
      omega

theorem readBack_lit {v : Option Value} (hv : LiteralText number J v) :
    ReadBack number J (.lit v) := by
  have hlevel : exprLevel (.lit v) = 33 := rfl
  cases v with
  | none =>
      refine readBack_primary hlevel ?_ ?_ ?_ <;> rw [stringify_lit]
      · exact ⟨110, js "ull", rfl, rfl⟩
      · exact fun rest _ => rfl
      · exact fun n _ rest hrest => primary_null hrest
  | some v =>
      cases v with
      | bool b =>
          have htext : stringify J (.lit (some (.bool b))) 0 = js (toString b) := by
            cases b <;> rw [stringify_lit] <;> rfl
          refine readBack_primary hlevel ?_ ?_ ?_ <;> rw [htext]
          · cases b
            · exact ⟨102, js "alse", rfl, rfl⟩
            · exact ⟨116, js "rue", rfl, rfl⟩
          · intro rest _
            cases b <;> rfl
          · exact fun n _ rest hrest => primary_bool b hrest
      | str s =>
          refine readBack_primary hlevel ?_ ?_ ?_ <;> rw [stringify_lit]
          · exact ⟨34, jsonUnits s ++ [34], rfl, rfl⟩
          · exact fun rest _ => rfl
          · exact fun n _ rest _ => primary_string hv
      | num q =>
          refine readBack_primary hlevel ?_ ?_ ?_ <;> rw [stringify_lit]
          · exact hv.start.1
          · exact fun rest _ => hv.start.2 rest
          · exact fun n _ rest hrest => primary_number hv hrest

/-! ## Parameters, calls and cases -/

theorem stringify_toParameter {parts : List Expr} (hparts : Parts parts)
    (hsingle : ∀ qs, parts ≠ [.app .concat qs]) :
    stringify J (toParameter parts) 0 = partTexts J parts := by
  obtain ⟨p, more, rfl⟩ := List.exists_cons_of_ne_nil hparts.ne_nil
  cases more with
  | cons q more =>
      rw [toParameter, stringify_app, appText, paramText]
      simp
  | nil =>
      rw [toParameter, stringify_app, appText]
      cases hp : asString p with
      | some s =>
          obtain rfl := asString_eq_some hp
          rw [partTexts_string, stringLit, paramText, partTexts, List.append_nil]
      | none =>
          rw [partTexts_other hp, paramText, partTexts]
          · rfl
          · rintro s rfl
            cases hp
          · rintro qs rfl
            exact hsingle qs rfl

theorem exprLevel_toParameter {parts : List Expr} (hparts : Parts parts) :
    exprLevel (toParameter parts) = 33 := by
  obtain ⟨p, more, rfl⟩ := List.exists_cons_of_ne_nil hparts.ne_nil
  cases more <;> rfl

theorem sizeOf_lt_toParameter {parts : List Expr} {p : Expr} (hp : p ∈ parts) :
    sizeOf p < sizeOf (toParameter parts) := by
  cases parts with
  | nil => cases hp
  | cons q more =>
      cases more with
      | nil => exact sizeOf_lt_of_mem hp
      | cons q' more =>
          have hlt : sizeOf p < sizeOf (Expr.app .concat (q :: q' :: more)) := sizeOf_lt_of_mem hp
          exact hlt.trans (sizeOf_lt_of_mem List.mem_cons_self)

theorem partTexts_start {parts : List Expr} (hparts : Parts parts) :
    (∃ c t, partTexts J parts = c :: t ∧ trimChar c = false)
      ∧ ∀ rest, Boundary rest → notOperator (partTexts J parts ++ rest) = none := by
  obtain ⟨p, more, rfl⟩ := List.exists_cons_of_ne_nil hparts.ne_nil
  cases hp : asString p with
  | none =>
      rw [partTexts_other hp]
      exact ⟨⟨123, _, rfl, rfl⟩, fun rest _ => rfl⟩
  | some s =>
      obtain rfl := asString_eq_some hp
      have hname := hparts.start s rfl
      rw [partTexts_string]
      constructor
      · obtain ⟨c, t, rfl⟩ := List.exists_cons_of_ne_nil hname.ne_nil
        exact ⟨c, _, rfl, trimChar_of_isNameChar (hname.chars c List.mem_cons_self)⟩
      · intro rest hrest
        have hcut : Cut (partTexts J more ++ rest) := by
          cases more with
          | nil =>
              rw [partTexts]
              exact hrest.cut
          | cons q more =>
              have hq : asString q = none :=
                (List.isChain_cons_cons.mp hparts.apart).1.resolve_left (by rw [hp]; simp)
              rw [partTexts_other hq]
              rfl
        rw [List.append_assoc]
        exact hname.notOperator_none hcut

theorem readBack_parameter {parts : List Expr} (hparts : Parts parts)
    (hsingle : ∀ qs, parts ≠ [.app .concat qs])
    (hread : ∀ p ∈ parts, asString p = none → ReadBack number J p) :
    ReadBack number J (toParameter parts) := by
  obtain ⟨hstart, hnot⟩ := partTexts_start (J := J) hparts
  have htext := stringify_toParameter (J := J) hparts hsingle
  refine readBack_primary (exprLevel_toParameter hparts) ?_ ?_ ?_ <;> rw [htext]
  · exact hstart
  · exact hnot
  · intro n hn rest hrest
    exact primary_parameter (skipsSpace_fix number n) hparts
      (fun p hp hother => (hread p hp hother).readAs ((sizeOf_lt_toParameter hp).trans_le hn)) hrest

theorem readBack_call {f : JsString} {args : List Expr} (hf : FunctionName f)
    (hread : ∀ a ∈ args, ReadBack number J a) :
    ReadBack number J (.app .func (stringLit f :: args)) := by
  have htext : stringify J (.app .func (stringLit f :: args)) 0
      = callText J (stringLit f :: args) := by
    rw [stringify_app, appText]
  refine readBack_primary rfl ?_ ?_ ?_ <;> rw [htext]
  · have hcall := callText_eq (J := J) f args []
    rw [List.append_nil] at hcall
    obtain ⟨c, t, rfl⟩ := List.exists_cons_of_ne_nil hf.ne_nil
    exact ⟨c, _, hcall,
      trimChar_of_isNameChar (isNameChar_of_isWord (hf.chars c List.mem_cons_self))⟩
  · intro rest _
    rw [callText_eq]
    exact hf.notOperator_none rfl
  · intro n hn rest _
    exact primary_call (skipsSpace_fix number n) (expression_close number n) hf fun a ha =>
      (hread a ha).readAs ((sizeOf_lt_of_mem (List.mem_cons_of_mem _ ha)).trans_le hn)

theorem mem_caseArgs {whens : List (Expr × Expr)} {last : Option Expr} {a : Expr} :
    a ∈ caseArgs whens last ↔ (∃ p ∈ whens, a = p.1 ∨ a = p.2) ∨ a ∈ elseArgs last := by
  simp [caseArgs, List.mem_flatMap]

theorem readBack_case {whens : List (Expr × Expr)} {last : Option Expr}
    (hwhens : ∀ p ∈ whens, Condition p.1) (hlast : last ≠ some .null)
    (hread : ∀ p ∈ whens, ReadBack number J p.1 ∧ ReadBack number J p.2)
    (hreadLast : ∀ e ∈ last, ReadBack number J e) :
    ReadBack number J (.app .case (caseArgs whens last)) := by
  have htext : ∀ rest, stringify J (.app .case (caseArgs whens last)) 0 ++ rest
      = js "CASE" ++ caseText J (caseArgs whens last) rest := fun rest => by
    rw [stringify_app, appText, intercalate_cons, caseText, List.append_assoc]
  refine readBack_primary rfl ?_ ?_ ?_
  · have hcase := htext []
    rw [List.append_nil] at hcase
    exact ⟨67, _, hcase, rfl⟩
  · intro rest _
    rw [htext]
    rfl
  · intro n hn rest hrest
    have hsize : ∀ a ∈ caseArgs whens last, sizeOf a < n := fun a ha =>
      (sizeOf_lt_of_mem ha).trans_le hn
    rw [htext]
    refine primary_case (skipsSpace_fix number n) hwhens hlast ?_ ?_ hrest
    · intro p hp
      exact ⟨(hread p hp).1.readAs (hsize _ (mem_caseArgs.mpr (.inl ⟨p, hp, .inl rfl⟩))),
        (hread p hp).2.readAs (hsize _ (mem_caseArgs.mpr (.inl ⟨p, hp, .inr rfl⟩)))⟩
    · intro e he
      refine (hreadLast e he).readAs (hsize _ (mem_caseArgs.mpr (.inr ?_)))
      rw [Option.mem_def.mp he]
      exact List.mem_cons_of_mem _ List.mem_cons_self

/-! ## Conditions -/

theorem readBack_not {a : Expr} (hne : exprLevel a ≠ 12) (ha : ReadBack number J a) :
    ReadBack number J (.app .not [a]) := by
  have htext : stringify J (.app .not [a]) 0 = js "NOT " ++ stringify J a 11 := by
    rw [stringify_app, appText, operatorText] <;> simp
  constructor
  · rw [htext]
    exact ⟨78, _, rfl, rfl⟩
  · exact fun h => absurd h (lt_irrefl 12)
  · intro n hn rest hrest
    have hrest : Follows 12 rest := hrest
    have hsize := (sizeOf_lt_of_mem List.mem_cons_self).trans_le hn
    have hoperand := ha.operand 11 13 (by omega) hsize (by omega) (by omega)
      (hrest.mono (by omega))
    have hnot : notOperator (js "NOT " ++ (stringify J a 11 ++ rest))
        = some (.not, stringify J a 11 ++ rest) := by
      have hkeyword : notOperator (js "NOT " ++ (stringify J a 11 ++ rest))
          = some (.not, trimmed (stringify J a 11 ++ rest)) := rfl
      rw [hkeyword, ha.start_stringify (by omega)]
    rw [htext, List.append_assoc]
    exact alt_left ((bind_some hnot).trans (map_some hoperand))
  · intro h
    rw [show exprLevel (.app .not [a]) = 12 from rfl] at h
    exact absurd h (by decide)

section

variable {op : Op} {a b c : Expr} {args : List Expr} {level n : ℕ}

/-- A condition, whose text begins with that of its first operand. -/
theorem readBack_condition {tail : JsString → JsString} (hop : opLevel op = some 20)
    (hlevel : level = 19 ∨ level = 20)
    (htext : ∀ rest, stringify J (.app op (a :: args)) 0 ++ rest
      = stringify J a level ++ (js " " ++ op.name ++ tail rest))
    (ha : ReadBack number J a)
    (hread : ∀ n, sizeOf (Expr.app op (a :: args)) ≤ n → ∀ rest, Follows 20 rest →
      comparison number (fix (expression number) n)
        (stringify J a level ++ (js " " ++ op.name ++ tail rest))
          = some (.app op (a :: args), trimmed rest)) :
    ReadBack number J (.app op (a :: args)) := by
  have hexpr : exprLevel (.app op (a :: args)) = 20 := by
    rw [exprLevel, hop, Option.getD_some]
  constructor
  · obtain ⟨c, t, hstart, hc⟩ := ha.start_level (show level < 33 by omega)
    have happ := htext []
    rw [List.append_nil, hstart] at happ
    exact ⟨c, _, happ, hc⟩
  · intro _ rest hrest
    have hfollows : Follows 21 (js " " ++ op.name ++ tail rest) :=
      follows_operator (by rw [hop]; rfl) (by rintro rfl; cases hop) _
    rw [htext]
    exact ha.notOperator_none (by omega) (by omega) hfollows.boundary
  · intro n hn rest hrest
    rw [hexpr] at hrest ⊢
    rw [htext]
    exact alt_left (hread n hn rest hrest)
  · intro h
    rw [hexpr] at h
    exact absurd h (by decide)

/-- The first operand of a condition ends where its operator begins. -/
theorem first_operand (hop : opLevel op = some 20) (hlevel : level = 19 ∨ level = 20)
    (hne : level = 19 → exprLevel a ≠ 20) (ha : ReadBack number J a) (hn : sizeOf a < n)
    (t : JsString) :
    valueExpression number (fix (expression number) n)
      (stringify J a level ++ (js " " ++ op.name ++ t)) = some (a, op.name ++ t) := by
  have hfollows : Follows 21 (js " " ++ op.name ++ t) :=
    follows_operator (by rw [hop]; rfl) (by rintro rfl; cases hop) _
  have hread := ha.operand level 21 (by omega) hn (by omega) (by omega) hfollows
  rw [trimmed_operator] at hread
  exact hread

/-- The other operands of a condition are printed above its level. -/
theorem ReadBack.second (hb : ReadBack number J b) (hn : sizeOf b < n) {rest : JsString}
    (hrest : Follows 21 rest) :
    valueExpression number (fix (expression number) n) (stringify J b 20 ++ rest)
      = some (b, trimmed rest) :=
  hb.operand 20 21 (by omega) hn (by omega) (by omega) hrest

theorem readBack_comparison (hop : op ∈ [.eq, .ne, .gt, .ge, .lt, .le]) (hne : exprLevel a ≠ 20)
    (ha : ReadBack number J a) (hb : ReadBack number J b) : ReadBack number J (.app op [a, b]) := by
  have hlevel : opLevel op = some 20 := by
    revert hop
    revert op
    decide
  have htext : ∀ rest, stringify J (.app op [a, b]) 0 ++ rest
      = stringify J a 19 ++ (js " " ++ op.name ++ (js " " ++ (stringify J b 20 ++ rest))) := by
    intro rest
    have happ : appText J op [a, b]
        = (js " " ++ op.name ++ js " ").intercalate [stringify J a 19, stringify J b 20] := by
      simp only [List.mem_cons, List.not_mem_nil, or_false] at hop
      rcases hop with rfl | rfl | rfl | rfl | rfl | rfl
      all_goals rw [appText, operatorText, texts, texts] <;> simp [opLevel]
    rw [stringify_app, happ, intercalate_cons]
    simp
  refine readBack_condition hlevel (.inl rfl) htext ha fun n hn rest hrest => ?_
  have hoperator : comparisonOperator (op.name ++ (js " " ++ (stringify J b 20 ++ rest)))
      = some (op, stringify J b 20 ++ rest) := by
    have hread : comparisonOperator (op.name ++ (js " " ++ (stringify J b 20 ++ rest)))
        = some (op, trimmed (stringify J b 20 ++ rest)) := by
      simp only [List.mem_cons, List.not_mem_nil, or_false] at hop
      rcases hop with rfl | rfl | rfl | rfl | rfl | rfl <;> rfl
    rw [hread, hb.start_stringify (by omega)]
  have hnull : isNullOperator (op.name ++ (js " " ++ (stringify J b 20 ++ rest))) = none := by
    simp only [List.mem_cons, List.not_mem_nil, or_false] at hop
    rcases hop with rfl | rfl | rfl | rfl | rfl | rfl <;> rfl
  have hfirst := first_operand hlevel (.inl rfl) (fun _ => hne) ha
    ((sizeOf_lt_of_mem List.mem_cons_self).trans_le hn) (js " " ++ (stringify J b 20 ++ rest))
  have hsecond := hb.second ((sizeOf_lt_of_mem (List.mem_cons_of_mem _
    List.mem_cons_self)).trans_le hn) (hrest.mono (Nat.le_succ 20))
  rw [comparison, alt_right ((bind_some hfirst).trans (map_none hnull))]
  exact alt_left ((bind_some hfirst).trans ((bind_some hoperator).trans (map_some hsecond)))

theorem readBack_isNull (hop : op ∈ [.isNull, .isNotNull]) (ha : ReadBack number J a) :
    ReadBack number J (.app op [a]) := by
  have hlevel : opLevel op = some 20 := by
    revert hop
    revert op
    decide
  simp only [List.mem_cons, List.not_mem_nil, or_false] at hop
  have htext : ∀ rest, stringify J (.app op [a]) 0 ++ rest
      = stringify J a 20 ++ (js " " ++ op.name ++ rest) := by
    intro rest
    have happ : appText J op [a] = stringify J a 20 ++ js " " ++ op.name := by
      rcases hop with rfl | rfl
      all_goals rw [appText, operatorText] <;> simp
    rw [stringify_app, happ]
    simp
  refine readBack_condition hlevel (.inr rfl) htext ha fun n hn rest hrest => ?_
  have hoperator : isNullOperator (op.name ++ rest) = some (op, trimmed rest) := by
    have hword := hrest.boundary.cut.word
    rcases hop with rfl | rfl
    · exact lexeme_some (notFollowedBy_some rfl hword)
    · exact lexeme_some (notFollowedBy_some rfl hword)
  have hfirst := first_operand hlevel (.inr rfl) (by omega) ha
    ((sizeOf_lt_of_mem List.mem_cons_self).trans_le hn) rest
  exact alt_left ((bind_some hfirst).trans (map_some hoperator))

/-- The operators of patterns are read and the others of the level are not. -/
theorem likeOperator_some (hop : op ∈ [.like, .notLike]) (t : JsString) :
    isNullOperator (op.name ++ (js " " ++ t)) = none
      ∧ comparisonOperator (op.name ++ (js " " ++ t)) = none
      ∧ likeOperator (op.name ++ (js " " ++ t)) = some (op, trimmed t) := by
  simp only [List.mem_cons, List.not_mem_nil, or_false] at hop
  rcases hop with rfl | rfl <;> exact ⟨rfl, rfl, rfl⟩

theorem stringify_like (hop : op ∈ [.like, .notLike]) (rest : JsString) :
    stringify J (.app op (a :: args)) 0 ++ rest
      = stringify J a 20 ++ (js " " ++ op.name ++ (js " " ++ (likeText J args ++ rest))) := by
  have happ : appText J op (a :: args)
      = stringify J a 20 ++ js " " ++ op.name ++ js " " ++ likeText J args := by
    simp only [List.mem_cons, List.not_mem_nil, or_false] at hop
    rcases hop with rfl | rfl
    all_goals rw [appText, operatorText] <;> simp
  rw [stringify_app, happ]
  simp

theorem readBack_like (hop : op ∈ [.like, .notLike]) (ha : ReadBack number J a)
    (hb : ReadBack number J b) : ReadBack number J (.app op [a, b]) := by
  have hlevel : opLevel op = some 20 := by
    revert hop
    revert op
    decide
  refine readBack_condition hlevel (.inr rfl) (stringify_like hop) ha fun n hn rest hrest => ?_
  rw [likeText]
  obtain ⟨hnull, hcomparison, hlike⟩ := likeOperator_some hop (stringify J b 20 ++ rest)
  rw [hb.start_stringify (by omega)] at hlike
  have hfirst := first_operand hlevel (.inr rfl) (by omega) ha
    ((sizeOf_lt_of_mem List.mem_cons_self).trans_le hn) (js " " ++ (stringify J b 20 ++ rest))
  have hsecond := hb.second ((sizeOf_lt_of_mem (List.mem_cons_of_mem _
    List.mem_cons_self)).trans_le hn) (hrest.mono (Nat.le_succ 20))
  have hescape := hrest.stops.escape le_rfl
  rw [comparison, alt_right ((bind_some hfirst).trans (map_none hnull)),
    alt_right ((bind_some hfirst).trans (bind_none hcomparison)), alt_right]
  · exact (bind_some hfirst).trans ((bind_some hlike).trans (map_some hsecond))
  · have hnone : skip (valueExpression number (fix (expression number) n)) escapeOperator
        (stringify J b 20 ++ rest) = none := by
      rw [skip, bind_some hsecond, map_none hescape]
    exact (bind_some hfirst).trans ((bind_some hlike).trans (bind_none hnone))

theorem readBack_escape (hop : op ∈ [.like, .notLike]) (hc : c.truthy = true)
    (ha : ReadBack number J a) (hb : ReadBack number J b) (hread : ReadBack number J c) :
    ReadBack number J (.app op [a, b, c]) := by
  have hlevel : opLevel op = some 20 := by
    revert hop
    revert op
    decide
  refine readBack_condition hlevel (.inr rfl) (stringify_like hop) ha fun n hn rest hrest => ?_
  have hsize : ∀ x ∈ [a, b, c], sizeOf x < n := fun x hx => (sizeOf_lt_of_mem hx).trans_le hn
  have htext : likeText J [b, c] ++ rest
      = stringify J b 20 ++ (js " ESCAPE " ++ (stringify J c 20 ++ rest)) := by
    rw [likeText, if_pos hc]
    simp
  have hthird := hread.second (hsize c (by simp)) (hrest.mono (Nat.le_succ 20))
  have hskip : trimmed (stringify J c 20 ++ rest) = stringify J c 20 ++ rest :=
    hread.start_stringify (by omega)
  rw [htext]
  generalize stringify J c 20 ++ rest = t at hthird hskip
  obtain ⟨hnull, hcomparison, hlike⟩ :=
    likeOperator_some hop (stringify J b 20 ++ (js " ESCAPE " ++ t))
  rw [hb.start_stringify (by omega)] at hlike
  have hfirst := first_operand hlevel (.inr rfl) (by omega) ha (hsize a (by simp))
    (js " " ++ (stringify J b 20 ++ (js " ESCAPE " ++ t)))
  have hsecond := hb.second (hsize b (by simp)) (follows_escape t)
  have hescape : escapeOperator (trimmed (js " ESCAPE " ++ t)) = some ((), trimmed t) := rfl
  rw [hskip] at hescape
  have hpattern := skip_some hsecond hescape
  rw [comparison, alt_right ((bind_some hfirst).trans (map_none hnull)),
    alt_right ((bind_some hfirst).trans (bind_none hcomparison))]
  exact alt_left ((bind_some hfirst).trans ((bind_some hlike).trans ((bind_some hpattern).trans
    (map_some hthird))))

end

/-! ## Round trip -/

theorem Printable.readBack (h : Printable number J e) : ReadBack number J e := by
  induction h with
  | lit hv => exact readBack_lit hv
  | parameter hparts hsingle _ ih => exact readBack_parameter hparts hsingle ih
  | call hf _ ih => exact readBack_call hf ih
  | case hwhens hlast _ _ _ ihw iht ihlast =>
      exact readBack_case hwhens hlast (fun p hp => ⟨ihw p hp, iht p hp⟩) ihlast
  | chain hop hargs hne _ _ iha ihargs => exact readBack_chain hop hargs hne iha ihargs
  | not hne _ iha => exact readBack_not hne iha
  | comparison hop hne _ _ iha ihb => exact readBack_comparison hop hne iha ihb
  | like hop _ _ iha ihb => exact readBack_like hop iha ihb
  | escape hop hc _ _ _ iha ihb ihc => exact readBack_escape hop hc iha ihb ihc
  | isNull hop _ iha => exact readBack_isNull hop iha

/-- What is printed of an expression is read as that expression. -/
theorem parse_stringify (h : Printable number J e) :
    parse number (stringify J e 0) = some e := by
  have hread := h.readBack
  obtain ⟨c, t, htext, -⟩ := hread.start
  have hne : stringify J e 0 ≠ [] := by
    rw [htext]
    exact List.cons_ne_nil c t
  have hsize : sizeOf e < max (sizeOf e) (stringify J e 0).length + 1 :=
    Nat.lt_succ_of_le (le_max_left _ _)
  have hfix := hread.readAs hsize [] (follows_nil 10)
  rw [List.append_nil] at hfix
  rw [parse, if_neg hne, fix_expression number (Nat.lt_succ_self _)
    (Nat.lt_succ_of_le (le_max_right (sizeOf e) _)), hfix]
  rfl

theorem name_a : Name (js "a") where
  ne_nil := by simp [js]
  chars := by decide
  number := rfl
  words := by decide

theorem printable_a : Printable number J (.app .param [stringLit (js "a")]) := by
  have hstring : ∀ s, stringLit s ∈ [stringLit (js "a")] → s = js "a" := by
    intro s hs
    cases List.mem_singleton.mp hs
    rfl
  have hparts : Parts [stringLit (js "a")] := by
    refine ⟨List.cons_ne_nil _ _, fun s hs => ?_, List.IsChain.singleton _, fun s hs => ?_⟩
    · rw [hstring s hs]
      exact name_a.toSegment
    · cases hs
      exact name_a
  refine .parameter hparts (by simp [stringLit]) fun p hp hother => ?_
  rw [List.mem_singleton.mp hp] at hother
  cases hother

/-- `NOT a = "x" OR a` -/
theorem parse_stringify_or :
    parse (fun _ => 0) (stringify idleJs (.app .or [.app .not [.app .eq
      [.app .param [stringLit (js "a")], stringLit (js "x")]], .app .param [stringLit (js "a")]]) 0)
      = some (.app .or [.app .not [.app .eq
        [.app .param [stringLit (js "a")], stringLit (js "x")]],
          .app .param [stringLit (js "a")]]) := by
  have hx : ∀ c ∈ js "x", c ≠ 0x2028 ∧ c ≠ 0x2029 := by decide
  refine parse_stringify (.chain (by simp) (by simp) (by simp) (.not (by simp [exprLevel, opLevel])
    (.comparison (by simp) (by simp [exprLevel, opLevel]) printable_a (.lit hx))) ?_)
  intro b hb
  rw [List.mem_singleton.mp hb]
  exact printable_a

end ExpressionParser

end GenieAcs
