import GenieAcs.ExpressionParser

/-!
# The tokens of a printed expression

A token is read back where nothing that follows it goes on with it, and a phrase of a level
where no operator of that level or above follows.
-/

namespace GenieAcs

open Peg

namespace ExpressionParser

/-! ## What follows an expression -/

/-- A text without the white space in front. -/
abbrev trimmed (s : JsString) : JsString := s.dropWhile trimChar

/-- Nothing goes on with the last token: the end, a blank, `)`, `,` or `}`. -/
structure Boundary (rest : JsString) : Prop where
  head : rest.head?.all (fun c => c = 32 || c = 41 || c = 44 || c = 125) = true
  call : (trimmed rest).head? ≠ some 40

/-- No operator of the level `k` or above. -/
structure Stops (k : ℕ) (r : JsString) : Prop where
  or : k ≤ 10 → orOperator r = none
  and : k ≤ 11 → andOperator r = none
  comparison : k ≤ 20 → comparisonOperator r = none
  like : k ≤ 20 → likeOperator r = none
  isNull : k ≤ 20 → isNullOperator r = none
  escape : k ≤ 20 → escapeOperator r = none
  concat : k ≤ 30 → lexeme trimChar (oneOf [.concat]) r = none
  add : k ≤ 31 → lexeme trimChar (oneOf [.add, .sub]) r = none
  mul : k ≤ 32 → lexeme trimChar (oneOf [.mul, .div, .mod]) r = none

/-- What may follow a phrase of the level `k`. -/
structure Follows (k : ℕ) (rest : JsString) : Prop where
  boundary : Boundary rest
  stops : Stops k (trimmed rest)

theorem Stops.mono {k j : ℕ} {r : JsString} (h : Stops k r) (hkj : k ≤ j) : Stops j r where
  or hj := h.or (hkj.trans hj)
  and hj := h.and (hkj.trans hj)
  comparison hj := h.comparison (hkj.trans hj)
  like hj := h.like (hkj.trans hj)
  isNull hj := h.isNull (hkj.trans hj)
  escape hj := h.escape (hkj.trans hj)
  concat hj := h.concat (hkj.trans hj)
  add hj := h.add (hkj.trans hj)
  mul hj := h.mul (hkj.trans hj)

theorem Follows.mono {k j : ℕ} {rest : JsString} (h : Follows k rest) (hkj : k ≤ j) :
    Follows j rest :=
  ⟨h.boundary, h.stops.mono hkj⟩

theorem follows_nil (k : ℕ) : Follows k [] where
  boundary := ⟨rfl, by simp⟩
  stops := by constructor <;> exact fun _ => rfl

theorem follows_close {c : Nat} (hc : c = 41 ∨ c = 44 ∨ c = 125) (k : ℕ) (t : JsString) :
    Follows k (c :: t) := by
  rcases hc with rfl | rfl | rfl
  all_goals
    exact ⟨⟨rfl, by simp [trimmed, trimChar]⟩, by constructor <;> exact fun _ => rfl⟩

/-- A word of a `CASE` may follow any expression. -/
theorem follows_word {w : String} (hw : w ∈ ["WHEN", "THEN", "ELSE", "END"]) (k : ℕ)
    (t : JsString) : Follows k (js " " ++ js w ++ t) := by
  simp only [List.mem_cons, List.not_mem_nil, or_false] at hw
  rcases hw with rfl | rfl | rfl | rfl
  all_goals
    exact ⟨⟨rfl, by simp [trimmed, trimChar, js]⟩, by constructor <;> exact fun _ => rfl⟩

/-- An operator may follow a phrase that is above its level. -/
theorem follows_operator {op : Op} {k : ℕ} (hk : (opLevel op).any (· < k) = true) (hop : op ≠ .not)
    (t : JsString) : Follows k (js " " ++ op.name ++ t) := by
  cases op
  all_goals
    simp only [opLevel, Option.any_some, decide_eq_true_eq, Option.any_none, Bool.false_eq_true,
      ne_eq, not_true_eq_false] at hk hop
  all_goals
    refine ⟨⟨rfl, by simp [trimmed, trimChar, js, Op.name]⟩, ?_⟩
    constructor <;> first | exact fun _ => rfl | exact fun h => absurd h (by omega)

theorem follows_escape (t : JsString) : Follows 21 (js " ESCAPE " ++ t) where
  boundary := ⟨rfl, by simp [trimmed, trimChar, js]⟩
  stops := by constructor <;> first | exact fun _ => rfl | exact fun h => absurd h (by decide)

/-! ## The rules of the levels -/

/-- The rule of the grammar for the level `k`. -/
def phrase (number : JsString → ℚ) (expr : TextParser Expr) (k : ℕ) : TextParser Expr :=
  if k ≤ 10 then disjunction number expr
  else if k ≤ 11 then conjunction number expr
  else if k ≤ 12 then negation number expr
  else if k ≤ 20 then condition number expr
  else if k ≤ 30 then valueExpression number expr
  else if k ≤ 31 then sums number expr
  else if k ≤ 32 then products number expr
  else primary number expr

variable {number : JsString → ℚ} {expr : TextParser Expr} {e : Expr} {s r : JsString} {k : ℕ}

theorem operand_none {operator : TextParser Op} {next : TextParser Expr} (h : operator r = none) :
    many (operand operator next) r = some ([], r) :=
  many_none (bind_none h)

/-- An operand without an operator behind it. -/
theorem binaryLeft_single {operator : TextParser Op} {next : TextParser Expr}
    (h : next s = some (e, r)) (hop : operator r = none) :
    binaryLeft operator next s = some (e, r) :=
  (bind_some h).trans (map_some (operand_none hop))

theorem comparison_none (h : valueExpression number expr s = some (e, r)) (hr : Stops 20 r) :
    comparison number expr s = none := by
  rw [comparison, alt_right, alt_right, alt_right]
  · rw [bind_some h, bind_none (hr.like le_rfl)]
  · rw [bind_some h, bind_none (hr.like le_rfl)]
  · rw [bind_some h, bind_none (hr.comparison le_rfl)]
  · rw [bind_some h, map_none (hr.isNull le_rfl)]

theorem negation_single (h : condition number expr s = some (e, r)) (hs : notOperator s = none) :
    negation number expr s = some (e, r) := by
  rw [negation, unary, alt_right (bind_none hs), h]

/-- A phrase that no operator of the level below follows is one of the level below. -/
theorem phrase_step (h : phrase number expr (k + 1) s = some (e, r)) (hr : Stops k r)
    (hs : k = 12 → notOperator s = none) : phrase number expr k s = some (e, r) := by
  have hcases : k < 10 ∨ k = 10 ∨ k = 11 ∨ k = 12 ∨ (13 ≤ k ∧ k < 20) ∨ k = 20 ∨ (21 ≤ k ∧ k < 30)
      ∨ k = 30 ∨ k = 31 ∨ k = 32 ∨ 33 ≤ k := by
    omega
  rcases hcases with hk | rfl | rfl | rfl | hk | rfl | hk | rfl | rfl | rfl | hk
  · rw [phrase, if_pos (by omega)] at h ⊢
    exact h
  · exact binaryLeft_single h (hr.or le_rfl)
  · exact binaryLeft_single h (hr.and le_rfl)
  · exact negation_single h (hs rfl)
  · rw [phrase, if_neg (by omega), if_neg (by omega), if_neg (by omega), if_pos (by omega)] at h ⊢
    exact h
  · exact (alt_right (comparison_none h hr)).trans h
  · rw [phrase, if_neg (by omega), if_neg (by omega), if_neg (by omega), if_neg (by omega),
      if_pos (by omega)] at h ⊢
    exact h
  · exact binaryLeft_single h (hr.concat le_rfl)
  · exact binaryLeft_single h (hr.add le_rfl)
  · exact binaryLeft_single h (hr.mul le_rfl)
  · rw [phrase, if_neg (by omega), if_neg (by omega), if_neg (by omega), if_neg (by omega),
      if_neg (by omega), if_neg (by omega), if_neg (by omega)] at h ⊢
    exact h

theorem phrase_mono {j : ℕ} (hkj : k ≤ j) (h : phrase number expr j s = some (e, r))
    (hr : Stops k r) (hs : 12 < j → notOperator s = none) :
    phrase number expr k s = some (e, r) := by
  induction j, hkj using Nat.le_induction with
  | base => exact h
  | succ j hkj ih =>
      have hj := phrase_step h (hr.mono hkj) fun heq => hs (by omega)
      exact ih hj fun hlt => hs (hlt.trans (Nat.lt_succ_self j))

/-! ## Tokens -/

/-- What cannot go on with a name, a number or a word. -/
def Cut (rest : JsString) : Prop := rest.head?.any (fun c => isNameChar c || c = 43) = false

theorem Cut.any {rest : JsString} (h : Cut rest) {c : Nat → Bool}
    (hc : ∀ x, c x = true → (isNameChar x || decide (x = 43)) = true) :
    rest.head?.any c = false := by
  cases rest with
  | nil => rfl
  | cons x t =>
      rw [← Bool.not_eq_true]
      intro hx
      exact Bool.false_ne_true (h.symm.trans (hc x hx))

theorem Boundary.cut {rest : JsString} (h : Boundary rest) : Cut rest := by
  have hhead := h.head
  cases rest with
  | nil => rfl
  | cons x t =>
      simp only [List.head?_cons, Option.all_some, Bool.or_eq_true, decide_eq_true_eq] at hhead
      rcases hhead with ((rfl | rfl) | rfl) | rfl <;> rfl

section

variable {rest : JsString}

theorem isNameChar_of_isWord {x : Nat} (h : isWord x = true) : isNameChar x = true := by
  rw [isNameChar, h]
  rfl

theorem Cut.word (h : Cut rest) : rest.head?.any isWord = false :=
  h.any fun x hx => by rw [isNameChar_of_isWord hx]; rfl

theorem Cut.letters (h : Cut rest) {t : JsString} (ht : ∀ a ∈ t, 97 ≤ a ∧ a ≤ 122) :
    ∀ a ∈ t, rest.head?.any (sameLetter a) = false := fun a ha =>
  h.any fun x hx => by
    have hrange := ht a ha
    have hword : isWord x = true := by
      simp only [sameLetter, decide_eq_true_eq] at hx
      simp only [isWord, decide_eq_true_eq]
      omega
    rw [isNameChar_of_isWord hword]
    rfl

/-- A word of the language, without the white space behind it. -/
abbrev word (t : JsString) : TextParser Unit := notFollowedBy (literal sameLetter t) isWord

theorem stable_word (h : Cut rest) {t : JsString} (ht : ∀ a ∈ t, 97 ≤ a ∧ a ≤ 122) :
    Stable (word t) rest :=
  (stable_literal (h.letters ht)).notFollowedBy h.word

theorem stable_oneChar {c : Nat → Bool} (h : rest.head?.any c = false) :
    Stable (oneChar c) rest := fun s => by
  cases s with
  | nil =>
      cases rest with
      | nil => rfl
      | cons x t =>
          have hx : c x = false := h
          rw [List.nil_append, oneChar, oneChar, hx]
          rfl
  | cons x s =>
      rw [List.cons_append, oneChar, oneChar]
      split_ifs <;> rfl

theorem stable_optional {p : TextParser JsString} (h : Stable p rest) : Stable (optional p) rest :=
  h.alt (stable_ret [])

theorem stable_both {p q : TextParser JsString} (hp : Stable p rest) (hq : Stable q rest) :
    Stable (both p q) rest :=
  hp.bind fun a => hq.map (a ++ ·)

theorem stable_numeral (h : Cut rest) : Stable numeral rest := by
  have hspan : Stable (span1 isDigit) rest := stable_span1 (h.any fun x hx => by
    simp only [isDigit, decide_eq_true_eq] at hx
    simp only [isNameChar, isWord, Bool.or_eq_true, decide_eq_true_eq]
    omega)
  have hchar : ∀ c : Nat → Bool, (∀ x, c x = true → (isNameChar x || decide (x = 43)) = true) →
      Stable (oneChar c) rest := fun c hc => stable_oneChar (h.any hc)
  refine stable_both (stable_optional (hchar _ ?_)) (stable_both ((hchar _ ?_).alt
    (stable_both (hchar _ ?_) (stable_optional hspan))) (stable_both
      (stable_optional (stable_both (hchar _ ?_) hspan)) (stable_optional (stable_both (hchar _ ?_)
        (stable_both (stable_optional (hchar _ ?_)) hspan)))))
  all_goals
    intro x hx
    simp only [decide_eq_true_eq] at hx
    simp only [isNameChar, isWord, Bool.or_eq_true, decide_eq_true_eq]
    omega

end

/-! ## Literals -/

theorem keyword_some {t rest : JsString} (h : literal sameLetter t s = some ((), rest))
    (hrest : rest.head?.any isWord = false) : keyword t s = some ((), trimmed rest) :=
  lexeme_some (notFollowedBy_some h hrest)

theorem nullValue_none (h : word (js "null") s = none) : nullValue s = none :=
  map_none (lexeme_none h)

theorem booleanValue_none (htrue : word (js "true") s = none)
    (hfalse : word (js "false") s = none) : booleanValue s = none :=
  (alt_right (map_none (lexeme_none htrue))).trans (map_none (lexeme_none hfalse))

theorem numberValue_none (h : notFollowedBy numeral isWord s = none) :
    numberValue number s = none :=
  map_none (lexeme_none h)

theorem value_none (hnull : word (js "null") s = none) (htrue : word (js "true") s = none)
    (hfalse : word (js "false") s = none) (hnumber : notFollowedBy numeral isWord s = none)
    (hsql : s.head? ≠ some 39) (hjs : s.head? ≠ some 34) (hfunc : funcValue expr s = none)
    (hcase : word (js "case") s = none) : value number expr s = none := by
  have hquote : ∀ c, s.head? ≠ some c → oneChar (· = c) s = none := fun c hc => by
    cases s with
    | nil => rfl
    | cons x s =>
        have hx : x ≠ c := fun heq => hc (congrArg some heq)
        rw [oneChar, if_neg (by simpa using hx)]
  have hsql : stringValueSql s = none :=
    map_none (lexeme_none (bind_none (bind_none (hquote 39 hsql))))
  have hjs : stringValueJs s = none := map_none (lexeme_none (bind_none (hquote 34 hjs)))
  rw [value, alt_right (nullValue_none hnull), alt_right (booleanValue_none htrue hfalse),
    alt_right (numberValue_none hnumber), alt_right hsql, alt_right hjs, alt_right hfunc]
  have hkeyword : keyword (js "case") s = none := lexeme_none hcase
  rw [caseStatement, andThen, bind_none hkeyword]

/-- No value begins with an opening bracket. -/
theorem value_bracket {c : Nat} (hc : c = 40 ∨ c = 123) (t : JsString) :
    value number expr (c :: t) = none := by
  rcases hc with rfl | rfl <;> rfl

theorem primary_null {rest : JsString} (h : Boundary rest) :
    primary number expr (js "null" ++ rest) = some (.null, trimmed rest) :=
  alt_left (alt_left (map_some (keyword_some rfl h.cut.word)))

theorem primary_bool (b : Bool) {rest : JsString} (h : Boundary rest) :
    primary number expr (js (toString b) ++ rest) = some (.ofBool b, trimmed rest) := by
  refine alt_left ?_
  cases b with
  | true =>
      have hnull : nullValue (js "true" ++ rest) = none := rfl
      rw [value, show js (toString true) = js "true" from rfl, alt_right hnull]
      exact alt_left (alt_left (map_some (keyword_some rfl h.cut.word)))
  | false =>
      have hnull : nullValue (js "false" ++ rest) = none := rfl
      have htrue : Peg.map (fun _ => Expr.ofBool true) (keyword (js "true")) (js "false" ++ rest)
          = none := rfl
      rw [value, show js (toString false) = js "false" from rfl, alt_right hnull]
      exact alt_left ((alt_right htrue).trans (map_some (keyword_some rfl h.cut.word)))

/-- The first character of a number. -/
theorem numeral_head {t r : JsString} (h : numeral s = some (t, r)) :
    s.head?.any (fun c => isDigit c || c = 45) = true := by
  cases s with
  | nil => cases h
  | cons c s =>
      by_contra hc
      have hdigit : isDigit c = false ∧ c ≠ 45 := by simpa using hc
      have hzero : c ≠ 48 := by
        rintro rfl
        exact absurd hdigit.1 (by decide)
      have hrange : ¬ (49 ≤ c ∧ c ≤ 57) := by
        have := hdigit.1
        simp only [isDigit, decide_eq_false_iff_not] at this
        omega
      have hsign : optional (oneChar (· = 45)) (c :: s) = some ([], c :: s) := by
        rw [optional, alt_right]
        · rfl
        · rw [oneChar, if_neg (by simpa using hdigit.2)]
      rw [numeral, both, bind_some hsign, map_none] at h
      · cases h
      · rw [both, bind_none]
        rw [alt_right]
        · rw [both, bind_none]
          rw [oneChar, if_neg (by simpa using hrange)]
        · rw [oneChar, if_neg (by simpa using hzero)]

/-- A word of the language begins with a letter. -/
theorem word_none {a c : Nat} {k : JsString} (h : sameLetter a c = false) :
    word (a :: k) (c :: s) = none :=
  notFollowedBy_none (by rw [literal, h]; rfl)

/-- A text that the grammar reads as the number. -/
def NumberText (number : JsString → ℚ) (t : JsString) (q : ℚ) : Prop :=
  numeral t = some (t, []) ∧ number t = q

theorem primary_number {t rest : JsString} {q : ℚ} (ht : NumberText number t q)
    (h : Boundary rest) :
    primary number expr (t ++ rest) = some (.lit (some (.num q)), trimmed rest) := by
  obtain ⟨hnumeral, rfl⟩ := ht
  have hread : notFollowedBy numeral isWord (t ++ rest) = some (t, rest) :=
    notFollowedBy_some ((stable_numeral h.cut).some hnumeral) h.cut.word
  have hhead := numeral_head hnumeral
  cases t with
  | nil => cases hnumeral
  | cons c t =>
      have hc : isDigit c = true ∨ c = 45 := by simpa using hhead
      have hword : ∀ a k, (97 ≤ a ∧ a ≤ 122) → word (a :: k) (c :: t ++ rest) = none :=
        fun a k ha => word_none (by
          simp only [isDigit, decide_eq_true_eq] at hc
          simp only [sameLetter, decide_eq_false_iff_not]
          omega)
      have hnull := nullValue_none (hword _ _ (by decide : 97 ≤ 'n'.toNat ∧ 'n'.toNat ≤ 122))
      have hboolean := booleanValue_none (hword _ _ (by decide : 97 ≤ 't'.toNat ∧ 't'.toNat ≤ 122))
        (hword _ _ (by decide : 97 ≤ 'f'.toNat ∧ 'f'.toNat ≤ 122))
      refine alt_left ?_
      rw [value, alt_right hnull, alt_right hboolean]
      exact alt_left (map_some (lexeme_some hread))

/-! ## Strings -/

section

variable {t u : JsString} {c : Nat}

theorem stringBody_plain (hquote : c ≠ 34) (hslash : c ≠ 92) (hend : isLineEnd c = false)
    (h : stringBody t = some (u, r)) : stringBody (c :: t) = some (c :: u, r) := by
  rw [stringBody_cons hquote (.inl hslash), if_neg (by simp [hend]), h]
  rfl

theorem stringBody_escape (hend : isLineEnd c = false) (h : stringBody t = some (u, r)) :
    stringBody (92 :: c :: t) = some (92 :: c :: u, r) := by
  rw [stringBody, if_neg (by simp [hend]), h]
  rfl

theorem stringBody_hexDigit {n : Nat} (hn : n < 16) (h : stringBody t = some (u, r)) :
    stringBody (hexDigit n :: t) = some (hexDigit n :: u, r) := by
  have hdigit : 48 ≤ hexDigit n ∧ hexDigit n ≤ 57 ∨ 97 ≤ hexDigit n ∧ hexDigit n ≤ 102 := by
    rw [hexDigit, show '0'.toNat = 48 from rfl, show 'a'.toNat = 97 from rfl]
    split_ifs <;> omega
  have hend : isLineEnd (hexDigit n) = false := by
    simp only [isLineEnd, decide_eq_false_iff_not]
    omega
  exact stringBody_plain (by omega) (by omega) hend h

theorem stringBody_unicodeEscape (h : stringBody t = some (u, r)) :
    stringBody (unicodeEscape c ++ t) = some (unicodeEscape c ++ u, r) :=
  stringBody_escape rfl (stringBody_hexDigit (by omega) (stringBody_hexDigit (by omega)
    (stringBody_hexDigit (by omega) (stringBody_hexDigit (by omega) h))))

theorem stringBody_jsonUnit (hc : c ≠ 0x2028 ∧ c ≠ 0x2029) (h : stringBody t = some (u, r)) :
    stringBody (jsonUnit c ++ t) = some (jsonUnit c ++ u, r) := by
  unfold jsonUnit
  split_ifs with h1 h2 h3 h4 h5 h6 h7 h8
  · exact stringBody_escape rfl h
  · exact stringBody_escape rfl h
  · exact stringBody_escape rfl h
  · exact stringBody_escape rfl h
  · exact stringBody_escape rfl h
  · exact stringBody_escape rfl h
  · exact stringBody_escape rfl h
  · exact stringBody_unicodeEscape h
  · refine stringBody_plain h1 h2 ?_ h
    simp only [isLineEnd, decide_eq_false_iff_not]
    omega

theorem stringBody_surrogate (hc : isHighSurrogate c = true ∨ isLowSurrogate c = true)
    (h : stringBody t = some (u, r)) : stringBody (c :: t) = some (c :: u, r) := by
  have hrange : 0xD800 ≤ c ∧ c ≤ 0xDFFF := by
    unfold isHighSurrogate isLowSurrogate at hc
    simp only [decide_eq_true_eq] at hc
    omega
  have hend : isLineEnd c = false := by
    simp only [isLineEnd, decide_eq_false_iff_not]
    omega
  exact stringBody_plain (by omega) (by omega) hend h

/-- The regular expression reads a JSON string up to its end. -/
theorem stringBody_jsonUnits {v : JsString} (hv : ∀ c ∈ v, c ≠ 0x2028 ∧ c ≠ 0x2029)
    (rest : JsString) : stringBody (jsonUnits v ++ 34 :: rest) = some (jsonUnits v, rest) := by
  have hend : stringBody (34 :: rest) = some ([], rest) := rfl
  induction v using jsonUnits.induct with
  | case1 => exact hend
  | case2 c h =>
      have hread := stringBody_unicodeEscape (c := c) hend
      rw [List.append_nil] at hread
      rw [jsonUnits, if_pos h, hread]
  | case3 c h =>
      have hread := stringBody_jsonUnit (hv c List.mem_cons_self) hend
      rw [List.append_nil] at hread
      rw [jsonUnits, if_neg h, hread]
  | case4 c d cs hhigh hlow ih =>
      rw [jsonUnits, if_pos hhigh, if_pos hlow]
      exact stringBody_surrogate (.inl hhigh) (stringBody_surrogate (.inr hlow)
        (ih fun x hx => hv x (List.mem_cons_of_mem _ (List.mem_cons_of_mem _ hx))))
  | case5 c d cs hhigh hlow ih =>
      rw [jsonUnits, if_pos hhigh, if_neg hlow, List.append_assoc]
      exact stringBody_unicodeEscape (ih fun x hx => hv x (List.mem_cons_of_mem _ hx))
  | case6 c d cs hhigh hlow ih =>
      rw [jsonUnits, if_neg hhigh, if_pos hlow, List.append_assoc]
      exact stringBody_unicodeEscape (ih fun x hx => hv x (List.mem_cons_of_mem _ hx))
  | case7 c d cs hhigh hlow ih =>
      rw [jsonUnits, if_neg hhigh, if_neg hlow, List.append_assoc]
      exact stringBody_jsonUnit (hv c List.mem_cons_self)
        (ih fun x hx => hv x (List.mem_cons_of_mem _ hx))

theorem interpretEscapes_plain (hc : c ≠ 92) (t : JsString) :
    interpretEscapes (c :: t) = c :: interpretEscapes t := by
  rw [interpretEscapes]
  · intro h1 h2 h3 h4 s heq
    exact absurd heq hc
  · intro d s heq
    exact absurd heq hc

theorem interpretEscapes_unicodeEscape (hc : c < 65536) (t : JsString) :
    interpretEscapes (unicodeEscape c ++ t) = c :: interpretEscapes t := by
  show interpretEscapes (92 :: 117 :: hexDigit (c / 4096 % 16) :: hexDigit (c / 256 % 16)
    :: hexDigit (c / 16 % 16) :: hexDigit (c % 16) :: t) = _
  rw [interpretEscapes]
  simp only [hexOf_hexDigit (Nat.mod_lt _ (by decide : 0 < 16))]
  congr 1
  omega

theorem interpretEscapes_jsonUnit (c : Nat) (t : JsString) :
    interpretEscapes (jsonUnit c ++ t) = c :: interpretEscapes t := by
  unfold jsonUnit
  split_ifs with h1 h2 h3 h4 h5 h6 h7 h8
  · subst h1; rfl
  · subst h2; rfl
  · subst h3; rfl
  · subst h4; rfl
  · subst h5; rfl
  · subst h6; rfl
  · subst h7; rfl
  · exact interpretEscapes_unicodeEscape (by omega) t
  · exact interpretEscapes_plain h2 t

theorem interpretEscapes_jsonUnits (v : JsString) : interpretEscapes (jsonUnits v) = v := by
  induction v using jsonUnits.induct with
  | case1 => rfl
  | case2 c h =>
      have hread := interpretEscapes_unicodeEscape (surrogate_lt h) []
      rw [List.append_nil] at hread
      rw [jsonUnits, if_pos h, hread]
      rfl
  | case3 c h =>
      have hread := interpretEscapes_jsonUnit c []
      rw [List.append_nil] at hread
      rw [jsonUnits, if_neg h, hread]
      rfl
  | case4 c d cs hhigh hlow ih =>
      rw [jsonUnits, if_pos hhigh, if_pos hlow,
        interpretEscapes_plain (surrogate_plain (.inl hhigh)),
        interpretEscapes_plain (surrogate_plain (.inr hlow)), ih]
  | case5 c d cs hhigh hlow ih =>
      rw [jsonUnits, if_pos hhigh, if_neg hlow,
        interpretEscapes_unicodeEscape (surrogate_lt (.inl hhigh)), ih]
  | case6 c d cs hhigh hlow ih =>
      rw [jsonUnits, if_neg hhigh, if_pos hlow,
        interpretEscapes_unicodeEscape (surrogate_lt (.inr hlow)), ih]
  | case7 c d cs hhigh hlow ih =>
      rw [jsonUnits, if_neg hhigh, if_neg hlow, interpretEscapes_jsonUnit, ih]

/-- A string that has no line separator is read back. -/
theorem primary_string {v rest : JsString} (hv : ∀ c ∈ v, c ≠ 0x2028 ∧ c ≠ 0x2029) :
    primary number expr (jsonString v ++ rest) = some (stringLit v, trimmed rest) := by
  have hbody : andThen (oneChar (· = 34)) stringBody (34 :: (jsonUnits v ++ 34 :: rest))
      = some (jsonUnits v, rest) := stringBody_jsonUnits hv rest
  have htext : jsonString v ++ rest = 34 :: (jsonUnits v ++ 34 :: rest) := by
    simp [jsonString, js]
  have hnumber : numberValue number (34 :: (jsonUnits v ++ 34 :: rest)) = none := rfl
  have hsql : stringValueSql (34 :: (jsonUnits v ++ 34 :: rest)) = none := rfl
  rw [htext]
  refine alt_left ?_
  rw [value, alt_right (nullValue_none rfl), alt_right (booleanValue_none rfl rfl),
    alt_right hnumber, alt_right hsql]
  refine alt_left ((map_some (lexeme_some hbody)).trans ?_)
  rw [interpretEscapes_jsonUnits]

end

end ExpressionParser

end GenieAcs
