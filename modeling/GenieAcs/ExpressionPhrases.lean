import GenieAcs.ExpressionTokens

/-!
# Parameters, calls and cases are read back

What `stringify` prints for these stands between tokens of its own, so that each of their parts
is read where the text of the part ends.
-/

namespace GenieAcs

open Peg

namespace ExpressionParser

variable {number : JsString → ℚ} {expr : TextParser Expr} {e : Expr} {s r : JsString} {k : ℕ}

/-! ## Names -/

/-- A part of a parameter's name. -/
structure Segment (s : JsString) : Prop where
  ne_nil : s ≠ []
  chars : ∀ c ∈ s, isNameChar c = true

/-- The first part of a name, which nothing else of the grammar reads. -/
structure Name (s : JsString) : Prop extends Segment s where
  number : notFollowedBy numeral isWord s = none
  words : ∀ k ∈ ["null", "true", "false", "not", "case"], word (js k) s = none

/-- The name of a function as the grammar gives it. -/
structure FunctionName (s : JsString) : Prop where
  ne_nil : s ≠ []
  chars : ∀ c ∈ s, isWord c = true
  upper : s.map upperAscii = s
  number : notFollowedBy numeral isWord s = none
  words : ∀ k ∈ ["null", "true", "false", "not"], word (js k) s = none

theorem symbol_none {c : Nat} (h : s.head? ≠ some c) : symbol [c] s = none := by
  refine lexeme_none ?_
  cases s with
  | nil => rfl
  | cons x s =>
      have hx : (c == x) = false := by
        simp only [List.head?_cons, ne_eq, Option.some.injEq] at h
        exact beq_false_of_ne fun heq => h heq.symm
      rw [literal, hx]
      rfl

theorem symbol_some (c : Nat) (s : JsString) : symbol [c] (c :: s) = some ((), trimmed s) :=
  lexeme_some (by rw [literal, beq_self_eq_true]; rfl)

theorem span1_eq_some {c : Nat → Bool} {w : JsString} (h : span1 c s = some (w, r)) :
    r = s.dropWhile c := by
  rw [span1] at h
  split_ifs at h
  exact (Prod.mk.inj (Option.some.inj h)).2.symm

theorem trimChar_of_isNameChar {c : Nat} (h : isNameChar c = true) : trimChar c = false := by
  simp only [isNameChar, isWord, Bool.or_eq_true, decide_eq_true_eq] at h
  simp only [trimChar, decide_eq_false_iff_not]
  omega

theorem trimmed_cons {c : Nat} (h : trimChar c = false) (s : JsString) :
    trimmed (c :: s) = c :: s := by
  rw [trimmed, List.dropWhile_cons, h]
  rfl

theorem length_trimmed (s : JsString) : (trimmed s).length ≤ s.length :=
  (List.dropWhile_suffix trimChar).length_le

/-- A name is not called. -/
theorem funcValue_name {rest : JsString} (hchars : ∀ c ∈ s, isNameChar c = true) (h : Cut rest)
    (hcall : (trimmed rest).head? ≠ some 40) : funcValue expr (s ++ rest) = none := by
  rw [funcValue]
  cases hspan : span1 isWord s with
  | none => exact bind_none (lexeme_none ((stable_span1 h.word).none hspan))
  | some x =>
      rw [bind_some (lexeme_some ((stable_span1 h.word).some hspan))]
      refine map_none (bind_none (symbol_none ?_))
      have hdrop := span1_eq_some hspan
      cases hx : x.2 with
      | nil => exact hcall
      | cons c r =>
          have hmem : c ∈ s := (List.dropWhile_suffix isWord).subset
            (hdrop ▸ hx ▸ List.mem_cons_self)
          have hc := hchars c hmem
          have htrimmed : trimmed (c :: r ++ rest) = c :: (r ++ rest) :=
            trimmed_cons (trimChar_of_isNameChar hc) _
          show (trimmed (c :: r ++ rest)).head? ≠ some 40
          rw [htrimmed]
          intro heq
          obtain rfl : c = 40 := Option.some.inj heq
          exact absurd hc (by decide)

theorem head?_append_name {rest : JsString} (hne : s ≠ []) (hchars : ∀ c ∈ s, isNameChar c = true)
    {c : Nat} (hc : isNameChar c = false) : (s ++ rest).head? ≠ some c := by
  cases s with
  | nil => exact absurd rfl hne
  | cons x s =>
      intro heq
      obtain rfl : x = c := Option.some.inj heq
      exact Bool.false_ne_true (hc.symm.trans (hchars x List.mem_cons_self))

theorem Name.value_none {rest : JsString} (hs : Name s) (h : Cut rest)
    (hcall : (trimmed rest).head? ≠ some 40) : value number expr (s ++ rest) = none := by
  have hword : ∀ k ∈ ["null", "true", "false", "not", "case"], word (js k) (s ++ rest) = none := by
    intro k hk
    refine (stable_word h ?_).none (hs.words k hk)
    revert hk
    revert k
    decide
  exact ExpressionParser.value_none (hword _ (by decide)) (hword _ (by decide))
    (hword _ (by decide)) (((stable_numeral h).notFollowedBy h.word).none hs.number)
    (head?_append_name hs.ne_nil hs.chars rfl) (head?_append_name hs.ne_nil hs.chars rfl)
    (funcValue_name hs.chars h hcall) (hword _ (by decide))

theorem Name.notOperator_none {rest : JsString} (hs : Name s) (h : Cut rest) :
    notOperator (s ++ rest) = none :=
  map_none (lexeme_none ((stable_word h (by decide)).none (hs.words "not" (by decide))))

/-! ## Parameters -/

/-- The text of `e` is read as an expression. -/
def ReadAs (J : Js) (expr : TextParser Expr) (e : Expr) : Prop :=
  ∀ rest, Follows 10 rest → expr (stringify J e 0 ++ rest) = some (e, trimmed rest)

/-- White space in front is skipped. -/
def SkipsSpace (expr : TextParser Expr) : Prop := ∀ s, expr (trimmed s) = expr s

theorem skipsSpace_fix (number : JsString → ℚ) (n : ℕ) :
    SkipsSpace (fix (expression number) n) := fun s => by
  cases n with
  | zero => rfl
  | succ n =>
      show lexeme trimChar _ ((trimmed s).dropWhile trimChar) = _
      rw [trimmed, List.dropWhile_idempotent]
      rfl

def asString : Expr → Option JsString
  | .lit (some (.str s)) => some s
  | _ => none

theorem asString_eq_some {p : Expr} (h : asString p = some s) : p = stringLit s := by
  cases p with
  | lit v =>
      cases v with
      | none => cases h
      | some v =>
          cases v with
          | str t =>
              cases h
              rfl
          | _ => cases h
  | app op args => cases h

/-- The parts of a name: no two that are plain stand side by side. -/
structure Parts (parts : List Expr) : Prop where
  ne_nil : parts ≠ []
  segments : ∀ s, stringLit s ∈ parts → Segment s
  apart : parts.IsChain fun p q => asString p = none ∨ asString q = none
  start : ∀ s, parts.head? = some (stringLit s) → Name s

variable {J : Js}

theorem partTexts_string (s : JsString) (parts : List Expr) :
    partTexts J (stringLit s :: parts) = s ++ partTexts J parts := by
  rw [stringLit, partTexts]

theorem partTexts_other {p : Expr} (h : asString p = none) (parts : List Expr) :
    partTexts J (p :: parts) = 123 :: (stringify J p 0 ++ 125 :: partTexts J parts) := by
  have htext : partTexts J (p :: parts)
      = js "\x7b" ++ stringify J p 0 ++ js "\x7d" ++ partTexts J parts := by
    rw [partTexts]
    intro s heq
    rw [heq] at h
    cases h
  rw [htext, List.append_assoc, List.append_assoc]
  rfl

/-- What a part of a name reads. -/
abbrev partParser (expr : TextParser Expr) : TextParser Expr :=
  alt (map stringLit (span1 isNameChar)) (braces expr)

theorem partParser_string {rest : JsString} (hs : Segment s)
    (hrest : rest.head?.any isNameChar = false) :
    partParser expr (s ++ rest) = some (stringLit s, rest) :=
  alt_left (map_some (span1_append hs.chars hs.ne_nil hrest))

theorem partParser_braces {p : Expr} (hskips : SkipsSpace expr) (hp : ReadAs J expr p)
    (more : JsString) :
    partParser expr (123 :: (stringify J p 0 ++ 125 :: more)) = some (p, more) := by
  have hspan : map stringLit (span1 isNameChar) (123 :: (stringify J p 0 ++ 125 :: more))
      = none := rfl
  have hread : expr (trimmed (stringify J p 0 ++ 125 :: more)) = some (p, 125 :: more) := by
    rw [hskips, hp _ (follows_close (.inr (.inr rfl)) 10 more)]
    rfl
  rw [partParser, alt_right hspan]
  exact (andThen_some (symbol_some 123 _)).trans (skip_some hread rfl)

/-- The parts are read one after the other. -/
theorem many_partParser {rest : JsString} (hskips : SkipsSpace expr) {parts : List Expr}
    (hsegments : ∀ s, stringLit s ∈ parts → Segment s)
    (hapart : parts.IsChain fun p q => asString p = none ∨ asString q = none)
    (hread : ∀ p ∈ parts, asString p = none → ReadAs J expr p)
    (hrest : rest.head?.any isNameChar = false) (hbrace : rest.head? ≠ some 123) :
    many (partParser expr) (partTexts J parts ++ rest) = some (parts, rest) := by
  induction parts with
  | nil =>
      have hspan : map stringLit (span1 isNameChar) rest = none := map_none (span1_none hrest)
      rw [partTexts, List.nil_append]
      refine many_none ?_
      rw [partParser, alt_right hspan, braces, andThen]
      exact bind_none (symbol_none hbrace)
  | cons p parts ih =>
      have hih := ih (fun s hs => hsegments s (List.mem_cons_of_mem _ hs))
        (List.isChain_of_isChain_cons hapart) fun q hq => hread q (List.mem_cons_of_mem _ hq)
      cases hp : asString p with
      | some s =>
          obtain rfl := asString_eq_some hp
          have hseg := hsegments s List.mem_cons_self
          have hnext : (partTexts J parts ++ rest).head?.any isNameChar = false := by
            cases parts with
            | nil =>
                rw [partTexts]
                exact hrest
            | cons q parts =>
                have hq : asString q = none :=
                  (List.isChain_cons_cons.mp hapart).1.resolve_left (by rw [hp]; simp)
                rw [partTexts_other hq]
                rfl
          rw [partTexts_string, List.append_assoc]
          refine many_some (partParser_string hseg hnext) ?_ hih
          have hpos := List.length_pos_iff.mpr hseg.ne_nil
          simp only [List.length_append]
          omega
      | none =>
          have hreadp := hread p List.mem_cons_self hp
          rw [partTexts_other hp]
          have hassoc : 123 :: (stringify J p 0 ++ 125 :: partTexts J parts) ++ rest
              = 123 :: (stringify J p 0 ++ 125 :: (partTexts J parts ++ rest)) := by
            simp
          rw [hassoc]
          refine many_some (partParser_braces hskips hreadp _) ?_ hih
          simp only [List.length_cons, List.length_append]
          omega

/-- The parameter of these parts. -/
theorem primary_parameter {rest : JsString} (hskips : SkipsSpace expr) {parts : List Expr}
    (hparts : Parts parts) (hread : ∀ p ∈ parts, asString p = none → ReadAs J expr p)
    (h : Boundary rest) : primary number expr (partTexts J parts ++ rest)
      = some (toParameter parts, trimmed rest) := by
  have hrest : rest.head?.any isNameChar = false := h.cut.any fun x hx => by rw [hx]; rfl
  have hbrace : rest.head? ≠ some 123 := fun heq => by
    have hhead := h.head
    rw [heq] at hhead
    cases hhead
  have hmany := many_partParser hskips hparts.segments hparts.apart hread hrest hbrace
  obtain ⟨p, more, rfl⟩ := List.exists_cons_of_ne_nil hparts.ne_nil
  -- the first part is read by itself, and it is no other value
  have hfirst : value number expr (partTexts J (p :: more) ++ rest) = none
      ∧ ∃ r, partParser expr (partTexts J (p :: more) ++ rest) = some (p, r)
        ∧ many (partParser expr) r = some (more, rest) := by
    have htail : many (partParser expr) (partTexts J more ++ rest) = some (more, rest) :=
      many_partParser hskips (fun s hs => hparts.segments s (List.mem_cons_of_mem _ hs))
        (List.isChain_of_isChain_cons hparts.apart)
        (fun q hq => hread q (List.mem_cons_of_mem _ hq)) hrest hbrace
    cases hp : asString p with
    | some s =>
        obtain rfl := asString_eq_some hp
        have hname := hparts.start s rfl
        rw [partTexts_string, List.append_assoc]
        cases more with
        | nil =>
            rw [partTexts, List.nil_append] at htail ⊢
            exact ⟨hname.value_none h.cut h.call, rest,
              partParser_string hname.toSegment hrest, htail⟩
        | cons q more =>
            have hq : asString q = none :=
              (List.isChain_cons_cons.mp hparts.apart).1.resolve_left (by rw [hp]; simp)
            rw [partTexts_other hq] at htail ⊢
            refine ⟨hname.value_none rfl ?_, _, partParser_string hname.toSegment rfl, htail⟩
            rw [List.cons_append, trimmed_cons rfl]
            simp
    | none =>
        have hassoc : partTexts J (p :: more) ++ rest
            = 123 :: (stringify J p 0 ++ 125 :: (partTexts J more ++ rest)) := by
          rw [partTexts_other hp]
          simp
        rw [hassoc]
        exact ⟨value_bracket (.inr rfl) _, _,
          partParser_braces hskips (hread p List.mem_cons_self hp) _, htail⟩
  obtain ⟨hvalue, r, hpart, hmore⟩ := hfirst
  rw [primary, alt_right hvalue]
  exact alt_left (map_some (lexeme_some (many1_some hpart hmore)))

/-! ## Calls and parentheses -/

theorem intercalate_cons (sep t : JsString) (ts : List JsString) :
    sep.intercalate (t :: ts) = t ++ (ts.map (sep ++ ·)).flatten := by
  induction ts generalizing t with
  | nil => simp [List.intercalate]
  | cons u ts ih =>
      have hu := ih u
      simp only [List.intercalate, List.intersperse_cons_cons, List.flatten_cons] at hu ⊢
      rw [hu, List.map_cons, List.flatten_cons, List.append_assoc]

theorem expression_close (number : JsString → ℚ) (n : ℕ) (t : JsString) :
    fix (expression number) n (41 :: t) = none := by
  cases n <;> rfl

/-- The arguments behind the first one, up to the closing parenthesis. -/
def moreArguments (J : Js) (args : List Expr) (rest : JsString) : JsString :=
  ((texts J 0 args).map (js ", " ++ ·)).flatten ++ 41 :: rest

theorem moreArguments_cons (a : Expr) (args : List Expr) (rest : JsString) :
    moreArguments J (a :: args) rest
      = 44 :: 32 :: (stringify J a 0 ++ moreArguments J args rest) := by
  rw [moreArguments, texts, List.map_cons, List.flatten_cons, List.append_assoc, List.append_assoc]
  rfl

theorem moreArguments_nil (rest : JsString) : moreArguments J [] rest = 41 :: rest := by
  rw [moreArguments, texts]
  rfl

theorem follows_moreArguments (args : List Expr) (rest : JsString) :
    Follows 10 (moreArguments J args rest)
      ∧ trimmed (moreArguments J args rest) = moreArguments J args rest := by
  cases args with
  | nil =>
      rw [moreArguments_nil]
      exact ⟨follows_close (.inl rfl) 10 rest, rfl⟩
  | cons a args =>
      rw [moreArguments_cons]
      exact ⟨follows_close (.inr (.inl rfl)) 10 _, rfl⟩

theorem many_arguments {rest : JsString} (hskips : SkipsSpace expr) {args : List Expr}
    (hread : ∀ a ∈ args, ReadAs J expr a) :
    many (andThen (symbol (js ",")) expr) (moreArguments J args rest)
      = some (args, 41 :: rest) := by
  induction args with
  | nil =>
      rw [moreArguments_nil]
      exact many_none (bind_none (symbol_none (show (41 :: rest).head? ≠ some 44 by simp)))
  | cons a args ih =>
      obtain ⟨hfollows, hnext⟩ := follows_moreArguments (J := J) args rest
      have hskip : ∀ t : JsString, expr (trimmed (32 :: t)) = expr t := fun t => hskips t
      rw [moreArguments_cons]
      refine many_some (a := a) ((andThen_some (symbol_some 44 _)).trans ?_) ?_
        (ih fun b hb => hread b (List.mem_cons_of_mem _ hb))
      · rw [hskip, hread a List.mem_cons_self _ hfollows, hnext]
      · simp only [List.length_cons, List.length_append]
        omega

theorem expressionList_arguments (hskips : SkipsSpace expr)
    (hclose : ∀ t, expr (41 :: t) = none) {args : List Expr}
    (hread : ∀ a ∈ args, ReadAs J expr a) (rest : JsString) :
    expressionList expr (trimmed ((js ", ").intercalate (texts J 0 args) ++ 41 :: rest))
      = some (args, 41 :: rest) := by
  cases args with
  | nil =>
      rw [texts]
      exact (alt_right (bind_none (hclose rest))).trans rfl
  | cons a args =>
      obtain ⟨hfollows, hnext⟩ := follows_moreArguments (J := J) args rest
      have hfirst : expr (trimmed (stringify J a 0 ++ moreArguments J args rest))
          = some (a, moreArguments J args rest) := by
        rw [hskips, hread a List.mem_cons_self _ hfollows, hnext]
      rw [texts, intercalate_cons, List.append_assoc]
      exact alt_left ((bind_some hfirst).trans
        (map_some (many_arguments hskips fun b hb => hread b (List.mem_cons_of_mem _ hb))))

theorem FunctionName.notOperator_none {rest : JsString} (hs : FunctionName s) (h : Cut rest) :
    notOperator (s ++ rest) = none :=
  map_none (lexeme_none ((stable_word h (by decide)).none (hs.words "not" (by decide))))

theorem callText_eq (f : JsString) (args : List Expr) (rest : JsString) :
    callText J (stringLit f :: args) ++ rest
      = f ++ 40 :: ((js ", ").intercalate (texts J 0 args) ++ 41 :: rest) := by
  rw [callText]
  show f ++ [40] ++ _ ++ [41] ++ rest = _
  simp

theorem primary_call {f rest : JsString} {args : List Expr} (hskips : SkipsSpace expr)
    (hclose : ∀ t, expr (41 :: t) = none) (hf : FunctionName f)
    (hread : ∀ a ∈ args, ReadAs J expr a) :
    primary number expr (callText J (stringLit f :: args) ++ rest)
      = some (.app .func (stringLit f :: args), trimmed rest) := by
  rw [callText_eq]
  have hlist := expressionList_arguments hskips hclose hread rest
  generalize (js ", ").intercalate (texts J 0 args) ++ 41 :: rest = t at hlist
  have hcut : Cut (40 :: t) := rfl
  have hchars : ∀ c ∈ f, isNameChar c = true := fun c hc => isNameChar_of_isWord (hf.chars c hc)
  have hword : ∀ k ∈ ["null", "true", "false", "not"], word (js k) (f ++ 40 :: t) = none := by
    intro k hk
    refine (stable_word hcut ?_).none (hf.words k hk)
    revert hk
    revert k
    decide
  have hnumber : numberValue number (f ++ 40 :: t) = none :=
    numberValue_none (((stable_numeral hcut).notFollowedBy hcut.word).none hf.number)
  have hquote : ∀ c, isNameChar c = false → oneChar (· = c) (f ++ 40 :: t) = none := by
    intro c hc
    have hhead : (f ++ 40 :: t).head? ≠ some c := head?_append_name hf.ne_nil hchars hc
    cases hft : f ++ 40 :: t with
    | nil => rfl
    | cons x r =>
        rw [hft] at hhead
        rw [oneChar, if_neg (by simpa using hhead)]
  have hsql : stringValueSql (f ++ 40 :: t) = none :=
    map_none (lexeme_none (bind_none (bind_none (hquote 39 rfl))))
  have hjs : stringValueJs (f ++ 40 :: t) = none :=
    map_none (lexeme_none (bind_none (hquote 34 rfl)))
  have hname : lexeme trimChar (span1 isWord) (f ++ 40 :: t) = some (f, 40 :: t) :=
    lexeme_some (span1_append hf.chars hf.ne_nil rfl)
  have hargs : skip (expressionList expr) (symbol (js ")")) (trimmed t)
      = some (args, trimmed rest) :=
    skip_some hlist (symbol_some 41 rest)
  refine alt_left ?_
  rw [value, alt_right (nullValue_none (hword _ (by decide))),
    alt_right (booleanValue_none (hword _ (by decide)) (hword _ (by decide))), alt_right hnumber,
    alt_right hsql, alt_right hjs]
  refine alt_left ((bind_some hname).trans ?_)
  refine (map_some ((andThen_some (symbol_some 40 t)).trans hargs)).trans ?_
  rw [hf.upper]

/-- An expression in parentheses is an operand. -/
theorem primary_parentheses (hskips : SkipsSpace expr) (hread : ReadAs J expr e)
    (rest : JsString) :
    primary number expr (js "(" ++ stringify J e 0 ++ js ")" ++ rest) = some (e, trimmed rest) := by
  have htext : js "(" ++ stringify J e 0 ++ js ")" ++ rest
      = 40 :: (stringify J e 0 ++ 41 :: rest) := by
    show [40] ++ _ ++ [41] ++ rest = _
    simp
  have hinside : expr (trimmed (stringify J e 0 ++ 41 :: rest)) = some (e, 41 :: rest) := by
    rw [hskips, hread _ (follows_close (.inl rfl) 10 rest)]
    rfl
  have hparameter : parameter expr (40 :: (stringify J e 0 ++ 41 :: rest)) = none := rfl
  rw [htext, primary, alt_right (value_bracket (.inl rfl) _), alt_right hparameter]
  exact (andThen_some (symbol_some 40 _)).trans (skip_some hinside (symbol_some 41 rest))

/-! ## Cases -/

/-- The arguments of a `CASE`. -/
def caseArgs (whens : List (Expr × Expr)) (last : Option Expr) : List Expr :=
  whens.flatMap (fun p => [p.1, p.2]) ++ elseArgs last

/-- A condition that is not taken for the mark of the last part. -/
def Condition (w : Expr) : Prop := ¬ (w.isArray = false ∧ w.truthy = true)

/-- The text behind `CASE`. -/
def caseText (J : Js) (args : List Expr) (rest : JsString) : JsString :=
  ((caseParts J args).map (js " " ++ ·)).flatten ++ rest

theorem caseText_when {p : Expr × Expr} (hp : Condition p.1) (whens : List (Expr × Expr))
    (last : Option Expr) (rest : JsString) :
    caseText J (caseArgs (p :: whens) last) rest
      = js " " ++ js "WHEN" ++ (32 :: (stringify J p.1 0 ++ (js " " ++ js "THEN"
        ++ (32 :: (stringify J p.2 0 ++ caseText J (caseArgs whens last) rest))))) := by
  have hargs : caseArgs (p :: whens) last = p.1 :: p.2 :: caseArgs whens last := rfl
  rw [caseText, hargs, caseParts, if_neg hp, caseText]
  simp [js]

theorem caseText_none (rest : JsString) :
    caseText J (caseArgs [] none) rest = js " " ++ js "END" ++ rest := by
  rw [caseText, caseArgs, List.flatMap_nil, List.nil_append, elseArgs, caseParts]
  · simp
  · simp

theorem caseText_some (he : e ≠ .null) (rest : JsString) :
    caseText J (caseArgs [] (some e)) rest
      = js " " ++ js "ELSE" ++ (32 :: (stringify J e 0 ++ (js " " ++ js "END" ++ rest))) := by
  rw [caseText, caseArgs, List.flatMap_nil, List.nil_append, elseArgs, caseParts,
    if_pos ⟨rfl, rfl⟩, if_neg he]
  simp [js]

theorem follows_caseText {whens : List (Expr × Expr)} {last : Option Expr}
    (hwhens : ∀ p ∈ whens, Condition p.1) (hlast : last ≠ some .null) (rest : JsString) :
    Follows 10 (caseText J (caseArgs whens last) rest) := by
  cases whens with
  | cons p whens =>
      rw [caseText_when (hwhens p List.mem_cons_self)]
      exact follows_word (by simp) 10 _
  | nil =>
      cases last with
      | none =>
          rw [caseText_none]
          exact follows_word (by simp) 10 _
      | some e =>
          rw [caseText_some fun heq => hlast (congrArg some heq)]
          exact follows_word (by simp) 10 _

theorem whenPair_some {w t : Expr} {rest : JsString} (hskips : SkipsSpace expr)
    (hw : ReadAs J expr w) (ht : ReadAs J expr t) (hrest : Follows 10 rest) :
    whenPair expr (js "WHEN" ++ (32 :: (stringify J w 0 ++ (js " " ++ js "THEN"
      ++ (32 :: (stringify J t 0 ++ rest)))))) = some ([w, t], trimmed rest) := by
  have hskip : ∀ t : JsString, expr (trimmed (32 :: t)) = expr t := fun t => hskips t
  have hwhen : keyword (js "when") (js "WHEN" ++ (32 :: (stringify J w 0 ++ (js " " ++ js "THEN"
      ++ (32 :: (stringify J t 0 ++ rest))))))
      = some ((), trimmed (32 :: (stringify J w 0 ++ (js " " ++ js "THEN"
        ++ (32 :: (stringify J t 0 ++ rest)))))) := keyword_some rfl rfl
  have hthen : keyword (js "then") (js "THEN" ++ (32 :: (stringify J t 0 ++ rest)))
      = some ((), trimmed (32 :: (stringify J t 0 ++ rest))) := keyword_some rfl rfl
  have hcond : andThen (keyword (js "when")) expr (js "WHEN" ++ (32 :: (stringify J w 0
      ++ (js " " ++ js "THEN" ++ (32 :: (stringify J t 0 ++ rest))))))
      = some (w, js "THEN" ++ (32 :: (stringify J t 0 ++ rest))) := by
    rw [andThen_some hwhen, hskip, hw _ (follows_word (by simp) 10 _)]
    rfl
  have hvalue : andThen (keyword (js "then")) expr (js "THEN" ++ (32 :: (stringify J t 0 ++ rest)))
      = some (t, trimmed rest) := by
    rw [andThen_some hthen, hskip, ht _ hrest]
  exact (bind_some hcond).trans (map_some hvalue)

theorem many_whenPair {rest : JsString} (hskips : SkipsSpace expr) {whens : List (Expr × Expr)}
    {last : Option Expr} (hwhens : ∀ p ∈ whens, Condition p.1) (hlast : last ≠ some .null)
    (hread : ∀ p ∈ whens, ReadAs J expr p.1 ∧ ReadAs J expr p.2) :
    many (whenPair expr) (trimmed (caseText J (caseArgs whens last) rest))
      = some (whens.map fun p => [p.1, p.2], trimmed (caseText J (caseArgs [] last) rest)) := by
  induction whens with
  | nil =>
      refine many_none (bind_none (bind_none ?_))
      cases last with
      | none =>
          rw [caseText_none]
          rfl
      | some e =>
          rw [caseText_some fun heq => hlast (congrArg some heq)]
          rfl
  | cons p whens ih =>
      have hrest : Follows 10 (caseText J (caseArgs whens last) rest) :=
        follows_caseText (fun q hq => hwhens q (List.mem_cons_of_mem _ hq)) hlast rest
      obtain ⟨hw, ht⟩ := hread p List.mem_cons_self
      have hwhen := whenPair_some hskips hw ht hrest
      have hstart : ∀ x : JsString, trimmed (js " " ++ js "WHEN" ++ x) = js "WHEN" ++ x :=
        fun x => rfl
      rw [caseText_when (hwhens p List.mem_cons_self), hstart]
      refine many_some hwhen ?_ (ih (fun q hq => hwhens q (List.mem_cons_of_mem _ hq))
        fun q hq => hread q (List.mem_cons_of_mem _ hq))
      have hlength := length_trimmed (caseText J (caseArgs whens last) rest)
      simp only [List.length_cons, List.length_append]
      omega

theorem caseStatement_some {rest : JsString} (hskips : SkipsSpace expr)
    {whens : List (Expr × Expr)} {last : Option Expr} (hwhens : ∀ p ∈ whens, Condition p.1)
    (hlast : last ≠ some .null)
    (hread : ∀ p ∈ whens, ReadAs J expr p.1 ∧ ReadAs J expr p.2)
    (hreadLast : ∀ e ∈ last, ReadAs J expr e) (h : Boundary rest) :
    caseStatement expr (js "CASE" ++ caseText J (caseArgs whens last) rest)
      = some (.app .case (caseArgs whens last), trimmed rest) := by
  have hfollows := follows_caseText (J := J) hwhens hlast rest
  have hcase : keyword (js "case") (js "CASE" ++ caseText J (caseArgs whens last) rest)
      = some ((), trimmed (caseText J (caseArgs whens last) rest)) :=
    keyword_some rfl hfollows.boundary.cut.word
  have hend : keyword (js "end") (js "END" ++ rest) = some ((), trimmed rest) :=
    keyword_some rfl h.cut.word
  have hlastPart : skip (alt (map some (andThen (keyword (js "else")) expr)) (ret none))
      (keyword (js "end")) (trimmed (caseText J (caseArgs [] last) rest))
      = some (last, trimmed rest) := by
    cases last with
    | none =>
        rw [caseText_none]
        exact skip_some (alt_right rfl) hend
    | some e =>
        have hskip : ∀ t : JsString, expr (trimmed (32 :: t)) = expr t := fun t => hskips t
        have helse : keyword (js "else") (js "ELSE" ++ (32 :: (stringify J e 0
            ++ (js " " ++ js "END" ++ rest)))) = some ((), trimmed (32 :: (stringify J e 0
              ++ (js " " ++ js "END" ++ rest)))) := keyword_some rfl rfl
        have hvalue : andThen (keyword (js "else")) expr (js "ELSE" ++ (32 :: (stringify J e 0
            ++ (js " " ++ js "END" ++ rest)))) = some (e, js "END" ++ rest) := by
          rw [andThen_some helse, hskip, hreadLast e rfl _ (follows_word (by simp) 10 _)]
          rfl
        rw [caseText_some fun heq => hlast (congrArg some heq)]
        exact skip_some (alt_left (map_some hvalue)) hend
  have hargs : (whens.map fun p => [p.1, p.2]).flatten ++ elseArgs last = caseArgs whens last := by
    rw [caseArgs, List.flatMap_def]
  rw [caseStatement, andThen_some hcase, bind_some (many_whenPair hskips hwhens hlast hread),
    map_some hlastPart, hargs]

theorem primary_case {rest : JsString} (hskips : SkipsSpace expr)
    {whens : List (Expr × Expr)} {last : Option Expr} (hwhens : ∀ p ∈ whens, Condition p.1)
    (hlast : last ≠ some .null)
    (hread : ∀ p ∈ whens, ReadAs J expr p.1 ∧ ReadAs J expr p.2)
    (hreadLast : ∀ e ∈ last, ReadAs J expr e) (h : Boundary rest) :
    primary number expr (js "CASE" ++ caseText J (caseArgs whens last) rest)
      = some (.app .case (caseArgs whens last), trimmed rest) := by
  have hcase := caseStatement_some hskips hwhens hlast hread hreadLast h
  have hfollows := follows_caseText (J := J) hwhens hlast rest
  have hfunc : funcValue expr (js "CASE" ++ caseText J (caseArgs whens last) rest) = none :=
    funcValue_name (by decide) hfollows.boundary.cut hfollows.boundary.call
  generalize caseText J (caseArgs whens last) rest = t at hcase hfunc
  have hnumber : numberValue number (js "CASE" ++ t) = none := rfl
  have hsql : stringValueSql (js "CASE" ++ t) = none := rfl
  have hjs : stringValueJs (js "CASE" ++ t) = none := rfl
  refine alt_left ?_
  rw [value, alt_right (nullValue_none rfl), alt_right (booleanValue_none rfl rfl),
    alt_right hnumber, alt_right hsql, alt_right hjs, alt_right hfunc, hcase]

end ExpressionParser

end GenieAcs
