import GenieAcs.Doubles
import GenieAcs.ExpressionTruth
import GenieAcs.LikeRegExps
import GenieAcs.ValueOrder
import GenieAcs.Lib.PairedTexts

/-!
# MAC addresses in searches

What is typed into the search field for MAC addresses becomes a LIKE expression.
The digits of a fragment, or of each run between wildcards, are broken by colons in
one of two ways; `queryMac` asks for both, and `queryMacWildcard` for every choice of
one way for each run.

The choices are the bits of a counter. It is shifted as a 32 bit integer, so that
runs 32 apart are broken in the same way, and from 2 ** 53 on it is not incremented
any more (`queryMac_iff`).
-/

namespace GenieAcs

namespace MacSearch

open JsNumber PairedText

/-! ## Queries -/

/-- `[a-f0-9]` without regard to case. -/
def hexDigit (c : Nat) : Bool := (48 ≤ c ∧ c ≤ 57) ∨ (97 ≤ c ∧ c ≤ 102) ∨ (65 ≤ c ∧ c ≤ 70)

/-- `replace(/(..)(?!$)/g, "$1:")` and `replace(/..(?=.)/gi, "$&:")`. -/
def pairs : JsString → JsString
  | a :: b :: c :: s => a :: b :: ':'.toNat :: pairs (c :: s)
  | s => s

/-- `replace(/(.)(.)/g, "$1:$2")`. -/
def shiftedPairs : JsString → JsString
  | a :: b :: s => a :: ':'.toNat :: b :: shiftedPairs s
  | s => s

def likeClause (param : Expr) (pat : JsString) : Expr :=
  .app .like [param, .lit (some (.str pat))]

def queryStringMonoCase (J : Js) (param : Expr) (value : JsString) : Expr :=
  .app .or [likeClause param (J.toLowerCase value), likeClause param (J.toUpperCase value)]

/-- `none` is `null`. -/
def queryMac (J : Js) (param : Expr) (value : JsString) : Option Expr :=
  let value := J.toLowerCase (value.filter hexDigit)
  if value = [] then none
  else if value.length = 12 then
    some (.app .or
      [.app .eq [param, .lit (some (.str (J.toLowerCase (pairs value))))],
        .app .eq [param, .lit (some (.str (J.toUpperCase (pairs value))))]])
  else
    let lower : Expr := .app .func [.lit (some (.str (js "LOWER"))), param]
    some (.app .or
      [likeClause lower ('%'.toNat :: (pairs value ++ ['%'.toNat])),
        likeClause lower ('%'.toNat :: (shiftedPairs value ++ ['%'.toNat]))])

/-- What a number is before a bitwise operation. -/
def toInt32 : JsNumber → BitVec 32
  | some (some (some q)) => BitVec.ofInt 32 (trunc q)
  | _ => 0#32

/-- `(i >> j) & 1`. -/
def bitOf (i : JsNumber) (j : Nat) : Bool := ((toInt32 i).sshiftRight (j % 32)).getLsbD 0

/-- `groups.map((g, j) => g[(i >> j) & 1]).join("%")`. -/
def joinGroups (groups : List (JsString × JsString)) (i : JsNumber) : JsString :=
  ['%'.toNat].intercalate (groups.mapIdx fun j g => if bitOf i j then g.2 else g.1)

/-- `/^[a-f0-9]:/i`. -/
def startsInPair : JsString → Bool
  | a :: b :: _ => hexDigit a && b = ':'.toNat
  | _ => false

/-- `/:[a-f0-9]$/i`. -/
def endsInPair (r : JsString) : Bool := startsInPair r.reverse

/-- `add` of a `Set`. -/
def setAdd (res : List JsString) (r : JsString) : List JsString :=
  if r ∈ res then res else res ++ [r]

/-- The body of the loop. -/
def addChoice (J : Js) (res : List JsString) (r : JsString) : List JsString :=
  if startsInPair r || endsInPair r then res
  else setAdd (setAdd res (J.toLowerCase r)) (J.toUpperCase r)

/-- The loop over `i`, for at most `fuel` rounds. -/
def wildcardLoop (J : Js) (groups : List (JsString × JsString)) :
    Nat → JsNumber → List JsString → Option (List JsString)
  | 0, _, _ => none
  | fuel + 1, i, res =>
      if gt (double (2 ^ groups.length)) i then
        wildcardLoop J groups fuel (add i (ofRat 1)) (addChoice J res (joinGroups groups i))
      else some res

def wildcardGroups (value : JsString) : List (JsString × JsString) :=
  (value.splitOn '%'.toNat).map fun p => (pairs p, shiftedPairs p)

/-- `none` while the loop goes on. -/
def queryMacWildcard (J : Js) (fuel : Nat) (param : Expr) (value : JsString) : Option Expr :=
  if value = [] ∨ ¬ value.all fun c => hexDigit c || c = '%'.toNat then
    some (queryStringMonoCase J param value)
  else
    (wildcardLoop J (wildcardGroups value) fuel (ofRat 0) []).map fun res =>
      match res with
      | [] => queryStringMonoCase J param value
      | [r] => likeClause param r
      | res => .app .or (res.map (likeClause param))

/-! ## Addresses -/

def lowerUnit (c : Nat) : Nat := if 65 ≤ c ∧ c ≤ 90 then c + 32 else c

def upperUnit (c : Nat) : Nat := if 97 ≤ c ∧ c ≤ 122 then c - 32 else c

/-- What is used of JavaScript: the case of ASCII characters, and what a regular
expression finds. -/
structure Standard (J : Js) : Prop where
  lower : ∀ s, (∀ c ∈ s, c < 128) → J.toLowerCase s = s.map lowerUnit
  upper : ∀ s, (∀ c ∈ s, c < 128) → J.toUpperCase s = s.map upperUnit
  test : ∀ source items, RegExp.parse source = some items → ∀ s,
    J.test source (.str s) = true ↔ RegExp.Test Like.javascript items s

/-- Twelve hexadecimal digits, all in lower or all in upper case. -/
structure Mac where
  digits : JsString
  length : digits.length = 12
  hex : ∀ c ∈ digits, hexDigit c = true
  cased : digits.map lowerUnit = digits ∨ digits.map upperUnit = digits

/-- The pairs of digits with colons between them. -/
def Mac.text (m : Mac) : JsString := spaced ':'.toNat false m.digits

/-- The expression is true or false, and true just if `P`. -/
def TrueIff (J : Js) (obj : Lookup) (now : Option ℚ) (e : Expr) (P : Prop) : Prop :=
  ∃ b, Means J obj now e (some b) ∧ (b = true ↔ P)

/-- A wildcard stands for any run of digits. -/
def patternToken (c : Nat) : Wildcard.Token Nat := if c = '%'.toNat then .run else .unit c

/-- The digits match the pattern without regard to case. -/
def DigitsMatch (pattern digits : JsString) : Prop :=
  Wildcard.Matches ((pattern.map lowerUnit).map patternToken) (digits.map lowerUnit)

/-- The runs of digits of a pattern, in lower case. -/
def digitRuns (pattern : JsString) : List JsString :=
  (pattern.map lowerUnit).splitOn '%'.toNat

/-- The runs are few enough to be told apart, or the digits match in such a way that
runs 32 apart that have a pair begin at the same place of a pair. -/
def Separable (pattern digits : JsString) : Prop :=
  (digitRuns pattern).length ≤ 32 ∨ (digitRuns pattern).length ≤ 53
    ∧ (DigitsMatch pattern digits →
      ∃ b : ℕ → Bool, Fits (fun j => b (j % 32)) false (digitRuns pattern) (digits.map lowerUnit))

/-! ## Evaluating the clauses -/

/-- A digit, a colon or a wildcard. -/
def Searchable (c : Nat) : Prop := hexDigit c = true ∨ c = ':'.toNat ∨ c = '%'.toNat

/-- The pattern has no escapes, and each `%` is a wildcard. -/
def Wild (r s : JsString) : Prop := Wildcard.Matches (r.map patternToken) s

section Evaluation

variable {J : Js} {obj : Lookup} {now : Option ℚ} {param : Expr} {r s : JsString}

/-- A disjunction over a list. -/
theorem TrueIff.or {α : Type} {clause : α → Expr} {P : α → Prop} {as : List α}
    (h : ∀ a ∈ as, TrueIff J obj now (clause a) (P a)) :
    TrueIff J obj now (.app .or (as.map clause)) (∃ a ∈ as, P a) := by
  have hvalues : ∃ bs : List Bool, List.Forall₂ (Means J obj now) (as.map clause) (bs.map some)
      ∧ (true ∈ bs ↔ ∃ a ∈ as, P a) := by
    induction as with
    | nil => exact ⟨[], .nil, by simp⟩
    | cons a as ih =>
        obtain ⟨⟨b, hb, hiff⟩, has⟩ := List.forall_mem_cons.mp h
        obtain ⟨bs, hbs, hany⟩ := ih has
        refine ⟨b :: bs, .cons hb hbs, ?_⟩
        rw [List.mem_cons, List.exists_mem_cons_iff, ← hiff, hany, eq_comm]
  obtain ⟨bs, hbs, hany⟩ := hvalues
  have hvalue : Kleene.any (bs.map some) = some (decide (true ∈ bs)) := by
    by_cases hmem : true ∈ bs
    · rw [decide_eq_true hmem, Kleene.any_eq_true]
      exact List.mem_map_of_mem hmem
    · rw [decide_eq_false hmem, Kleene.any_eq_false]
      intro t ht
      obtain ⟨b, hb, rfl⟩ := List.mem_map.mp ht
      cases b with
      | true => exact absurd hb hmem
      | false => rfl
  have hor := Means.or hbs
  rw [hvalue] at hor
  exact ⟨_, hor, decide_eq_true_iff.trans hany⟩

theorem TrueIff.congr {e : Expr} {P Q : Prop} (h : TrueIff J obj now e P) (hPQ : P ↔ Q) :
    TrueIff J obj now e Q :=
  have ⟨b, hb, hiff⟩ := h
  ⟨b, hb, hiff.trans hPQ⟩

theorem TrueIff.unique {e : Expr} {P Q : Prop} (hP : TrueIff J obj now e P)
    (hQ : TrueIff J obj now e Q) : P ↔ Q := by
  obtain ⟨b, hb, hbP⟩ := hP
  obtain ⟨b', hb', hbQ⟩ := hQ
  cases hb.unique hb'
  exact hbP.symm.trans hbQ

theorem Searchable.bounds {c : Nat} (h : Searchable c) :
    c < 128 ∧ c ≠ '\\'.toNat ∧ c ≠ '_'.toNat ∧ ¬ Like.LineTerminator c := by
  have hterminator : Like.LineTerminator c ↔ c = 10 ∨ c = 13 ∨ c = 0x2028 ∨ c = 0x2029 := by
    simp [Like.LineTerminator]
  rw [hterminator]
  have hcolon : ':'.toNat = 58 := rfl
  have hpercent : '%'.toNat = 37 := rfl
  have hslash : '\\'.toNat = 92 := rfl
  have hline : '_'.toNat = 95 := rfl
  rw [hslash, hline]
  unfold Searchable hexDigit at h
  rw [hcolon, hpercent, decide_eq_true_iff] at h
  omega

/-- A step of the loop without an escape character. -/
theorem tokens_cons {c : Nat} (hc : c ≠ '_'.toNat) (run : Bool) :
    Like.tokens none run (c :: r) = if c = '%'.toNat then
      (if run then [] else [Like.anyRun]) ++ Like.tokens none true r
      else [c] :: Like.tokens none false r := by
  have hescape : ¬ some [c] = (none : Option JsString) := fun h => nomatch h
  rw [Like.tokens.eq_def]
  simp only [if_neg hescape, if_neg hc]
  by_cases hpercent : c = '%'.toNat
  · cases run <;> simp [hpercent]
  · rw [if_neg (fun h => hpercent h.2), if_neg hpercent, if_neg hpercent]

theorem token_unit (c : Nat) : Like.token [c] = .unit c := by
  rw [Like.token, if_neg (Like.unit_ne_run c), if_neg (Like.unit_ne_one c)]
  rfl

theorem matches_run_run {p : List (Wildcard.Token Nat)} :
    Wildcard.Matches (.run :: .run :: p) s ↔ Wildcard.Matches (.run :: p) s := by
  rw [Wildcard.matches_run]
  constructor
  · rintro ⟨u, v, rfl, hv⟩
    obtain ⟨u', v', rfl, hv'⟩ := Wildcard.matches_run.mp hv
    exact Wildcard.matches_run.mpr ⟨u ++ u', v', (List.append_assoc ..).symm, hv'⟩
  · exact fun h => ⟨[], s, rfl, h⟩

/-- The tokens of a pattern without escapes, behind a wildcard or not. -/
theorem matches_tokens (hr : ∀ c ∈ r, Searchable c) (s : JsString) :
    (Wildcard.Matches ((Like.tokens none false r).map Like.token) s ↔ Wild r s)
      ∧ (Wildcard.Matches (.run :: (Like.tokens none true r).map Like.token) s
        ↔ Wildcard.Matches (.run :: r.map patternToken) s) := by
  induction r generalizing s with
  | nil => exact ⟨Iff.rfl, Iff.rfl⟩
  | cons c r ih =>
      obtain ⟨hc, hr⟩ := List.forall_mem_cons.mp hr
      have hline := hc.bounds.2.2.1
      rw [Wild, tokens_cons hline, tokens_cons hline, List.map_cons]
      by_cases hpercent : c = '%'.toNat
      · have htoken : patternToken c = .run := if_pos hpercent
        rw [if_pos hpercent, if_pos hpercent, htoken, matches_run_run]
        refine ⟨?_, (ih hr s).2⟩
        show Wildcard.Matches (Like.token Like.anyRun :: _) s ↔ _
        rw [Like.token_run.mpr rfl]
        exact (ih hr s).2
      · have htoken : patternToken c = .unit c := if_neg hpercent
        have hrun : Wildcard.Token.unit c ≠ .run := fun h => nomatch h
        have hunit : ∀ s, Wildcard.Matches (.unit c :: (Like.tokens none false r).map Like.token) s
            ↔ Wildcard.Matches (.unit c :: r.map patternToken) s := by
          intro s
          rw [Wildcard.matches_cons hrun, Wildcard.matches_cons hrun]
          refine exists₂_congr fun b t => and_congr_right fun _ => and_congr_right fun _ => ?_
          exact (ih hr t).1
        rw [if_neg hpercent, if_neg hpercent, List.map_cons, token_unit, htoken,
          Wildcard.matches_run, Wildcard.matches_run]
        exact ⟨hunit s, exists₂_congr fun u t => and_congr_right fun _ => hunit t⟩

/-- No token is a backslash. -/
theorem backslash_not_mem (hr : ∀ c ∈ r, Searchable c) (run : Bool) :
    js "\\" ∉ Like.tokens none run r := by
  induction r generalizing run with
  | nil => exact List.not_mem_nil
  | cons c r ih =>
      obtain ⟨hc, hr⟩ := List.forall_mem_cons.mp hr
      have hunit : js "\\" ≠ [c] := fun h => hc.bounds.2.1 (List.cons.inj h).1.symm
      have hwild : js "\\" ≠ Like.anyRun := by decide
      rw [tokens_cons hc.bounds.2.2.1]
      split_ifs
      · exact ih hr true
      · rw [List.singleton_append, List.mem_cons, not_or]
        exact ⟨hwild, ih hr true⟩
      · rw [List.mem_cons, not_or]
        exact ⟨hunit, ih hr false⟩

theorem likeClause_trueIff (hJ : Standard J)
    (hparam : evaluate J param (some obj) now id = .ok (.lit (some (.str s))))
    (hr : ∀ c ∈ r, Searchable c) (hs : ∀ c ∈ s, Searchable c) :
    TrueIff J obj now (likeClause param r) (Wild r s) := by
  have hargs : List.Forall₂ (fun e v => evaluate J e (some obj) now id = .ok (.lit v))
      [param, .lit (some (.str r))] [some (.str s), some (.str r)] :=
    .cons hparam (.cons (evaluate_lit _) .nil)
  refine ⟨J.test (Like.likePatternToRegExp r none) (.str s), ⟨some (.bool _), ?_, rfl⟩, ?_⟩
  · rw [likeClause, evaluate_app hargs]
    show Except.ok (Expr.ofBool (_ != false)) = _
    rw [Bool.bne_false]
    rfl
  · obtain ⟨items, hparse, htest⟩ := Like.test_likePattern (backslash_not_mem hr false)
      fun c hc => (hs c hc).bounds.2.2.2
    rw [hJ.test _ _ hparse, htest]
    exact (matches_tokens hr s).1

end Evaluation

/-! ## Runs of digits -/

section Runs

variable {value s : JsString} {parts : List JsString} {f : ℕ → Bool}

theorem pairs_eq (p : JsString) : pairs p = spaced ':'.toNat false p := by
  fun_induction pairs p with
  | case1 a b c s ih =>
      rw [ih]
      rfl
  | case2 s h =>
      match s, h with
      | [], _ => rfl
      | [_], _ => rfl
      | [_, _], _ => rfl
      | a :: b :: c :: s, h => exact absurd rfl (h a b c s)

theorem shiftedPairs_eq (p : JsString) : shiftedPairs p = spaced ':'.toNat true p := by
  induction p using List.twoStepInduction with
  | nil => rfl
  | singleton a => rfl
  | cons_cons a b s ih _ =>
      rw [shiftedPairs, ih]
      cases s <;> rfl

theorem splitOn_spec : ∀ p ∈ value.splitOn '%'.toNat, '%'.toNat ∉ p ∧ ∀ c ∈ p, c ∈ value := by
  induction value with
  | nil =>
      rw [List.splitOn_nil]
      exact List.forall_mem_singleton.mpr ⟨List.not_mem_nil, fun _ h => h⟩
  | cons c value ih =>
      have hrest : ∀ p ∈ value.splitOn '%'.toNat,
          '%'.toNat ∉ p ∧ ∀ d ∈ p, d ∈ c :: value := fun p hp =>
        ⟨(ih p hp).1, fun d hd => List.mem_cons_of_mem c ((ih p hp).2 d hd)⟩
      rw [List.splitOn_cons_eq_if_modifyHead]
      split_ifs with hc
      · exact List.forall_mem_cons.mpr ⟨⟨List.not_mem_nil, fun _ h => absurd h List.not_mem_nil⟩, hrest⟩
      · obtain ⟨p, parts, hsplit⟩ := List.exists_cons_of_ne_nil (List.splitOn_ne_nil '%'.toNat value)
        rw [hsplit] at hrest ⊢
        obtain ⟨⟨hp, hpin⟩, hparts⟩ := List.forall_mem_cons.mp hrest
        refine List.forall_mem_cons.mpr ⟨⟨?_, ?_⟩, hparts⟩
        · rw [List.mem_cons, not_or]
          exact ⟨fun h => hc (beq_iff_eq.mpr h.symm), hp⟩
        · exact List.forall_mem_cons.mpr ⟨List.mem_cons_self, hpin⟩

theorem lowerUnit_percent {c : Nat} : lowerUnit c = '%'.toNat ↔ c = '%'.toNat := by
  have hpercent : '%'.toNat = 37 := rfl
  rw [lowerUnit, hpercent]
  split_ifs <;> omega

theorem digitRuns_eq (value : JsString) :
    digitRuns value = (value.splitOn '%'.toNat).map (·.map lowerUnit) := by
  rw [digitRuns]
  induction value with
  | nil => rfl
  | cons c value ih =>
      rw [List.map_cons, List.splitOn_cons_eq_if_modifyHead, List.splitOn_cons_eq_if_modifyHead, ih]
      by_cases hc : c = '%'.toNat
      · rw [if_pos (beq_iff_eq.mpr hc), if_pos (beq_iff_eq.mpr (lowerUnit_percent.mpr hc))]
        rfl
      · rw [if_neg (mt beq_iff_eq.mp hc),
          if_neg (mt beq_iff_eq.mp (mt lowerUnit_percent.mp hc))]
        cases value.splitOn '%'.toNat <;> rfl

theorem map_patternToken {p : JsString} (hp : '%'.toNat ∉ p) : p.map patternToken = p.map .unit :=
  List.map_congr_left fun c hc => if_neg fun heq : c = '%'.toNat => hp (heq ▸ hc)

/-- A pattern finds its parts one after the other. -/
theorem wild_intercalate (hne : parts ≠ []) (hparts : ∀ p ∈ parts, '%'.toNat ∉ p) :
    Wild (['%'.toNat].intercalate parts) s ↔ Joined parts s := by
  induction parts generalizing s with
  | nil => exact absurd rfl hne
  | cons p parts ih =>
      obtain ⟨hp, hrest⟩ := List.forall_mem_cons.mp hparts
      cases parts with
      | nil =>
          rw [List.intercalate_singleton, Wild, map_patternToken hp]
          exact Wildcard.matches_units p
      | cons q parts =>
          have htoken : ['%'.toNat].map patternToken = [.run] := rfl
          have hseq : ∀ t, Wild (['%'.toNat].intercalate (q :: parts)) t ↔ Joined (q :: parts) t :=
            fun t => ih (List.cons_ne_nil q parts) hrest
          rw [List.intercalate_cons_cons, Wild, List.append_assoc, List.map_append, List.map_append,
            htoken, map_patternToken hp, Wildcard.matches_append]
          constructor
          · rintro ⟨u, v, rfl, hu, hv⟩
            obtain rfl := (Wildcard.matches_units p).mp hu
            obtain ⟨w, t, rfl, ht⟩ := Wildcard.matches_run.mp hv
            exact ⟨w, t, rfl, (hseq t).mp ht⟩
          · rintro ⟨w, t, rfl, ht⟩
            exact ⟨p, w ++ t, rfl, (Wildcard.matches_units p).mpr rfl,
              Wildcard.matches_run.mpr ⟨w, t, rfl, (hseq t).mpr ht⟩⟩

theorem map_intercalate {g : Nat → Nat} (hg : g '%'.toNat = '%'.toNat) (parts : List JsString) :
    (['%'.toNat].intercalate parts).map g = ['%'.toNat].intercalate (parts.map (·.map g)) := by
  induction parts with
  | nil => rfl
  | cons p parts ih =>
      cases parts with
      | nil => rw [List.intercalate_singleton, List.map_singleton, List.intercalate_singleton]
      | cons q parts =>
          rw [List.intercalate_cons_cons, List.map_cons, List.map_cons, List.intercalate_cons_cons,
            ← List.map_cons, ← ih, List.map_append, List.map_append, List.map_singleton, hg]

theorem digitRuns_ne_nil (value : JsString) : digitRuns value ≠ [] := List.splitOn_ne_nil _ _

/-- The runs with wildcards between them. -/
theorem intercalate_digitRuns (value : JsString) :
    ['%'.toNat].intercalate (digitRuns value) = value.map lowerUnit := List.intercalate_splitOn _

theorem digitsMatch_iff {digits : JsString} :
    DigitsMatch value digits ↔ Joined (digitRuns value) (digits.map lowerUnit) := by
  rw [DigitsMatch, ← intercalate_digitRuns]
  exact wild_intercalate (digitRuns_ne_nil value) fun p hp => (splitOn_spec p hp).1

end Runs

/-! ## The counter -/

section Counter

theorem bitOf_nat (i j : ℕ) : bitOf (ofRat i) j = i.testBit (j % 32) := by
  have hint : toInt32 (ofRat i) = BitVec.ofNat 32 i := by
    show BitVec.ofInt 32 (trunc (i : ℚ)) = _
    rw [trunc, if_pos (Nat.cast_nonneg i), Int.floor_natCast, BitVec.ofInt_natCast]
  have hlt : j % 32 < 32 := Nat.mod_lt j (by decide)
  have hnot : ¬ 32 ≤ 0 := by decide
  rw [bitOf, hint, BitVec.getLsbD_sshiftRight, Nat.add_zero, if_pos hlt, BitVec.getLsbD_ofNat,
    decide_eq_true hlt, decide_eq_false hnot]
  rfl

theorem double_pow_nat {n : ℕ} (hn : n < 1024) : double (2 ^ n) = ofRat (2 ^ n) := by
  by_cases hsmall : n < 53
  · have hpow : 2 ^ n < 2 ^ 53 := Nat.pow_lt_pow_right (by decide) hsmall
    have hdouble := double_nat hpow
    push_cast at hdouble
    exact hdouble
  · refine double_eq ⟨2 ^ 52, n - 52, by norm_num, by omega, by omega, ?_⟩
    rw [Int.cast_pow, ← zpow_natCast, ← zpow_natCast, Int.cast_ofNat, ← zpow_add₀ two_ne_zero]
    congr 1
    omega

/-- The counter is below the number of choices. -/
theorem gt_double_pow {n k : ℕ} (hk : k < 2 ^ n) :
    gt (double (2 ^ n)) (ofRat k) = true := by
  by_cases hn : n < 1024
  · rw [double_pow_nat hn, gt_ofRat]
    exact decide_eq_true (by exact_mod_cast hk)
  · rw [double_pow (not_lt.mp hn)]
    have htop : (((k : ℚ) : WithTop ℚ) : WithBot (WithTop ℚ)) < ((⊤ : WithTop ℚ) : WithBot _) :=
      WithBot.coe_lt_coe.mpr (WithTop.coe_lt_top _)
    exact decide_eq_true htop

theorem gt_double_pow_self {n : ℕ} (hn : n < 1024) :
    gt (double (2 ^ n)) (ofRat (2 ^ n : ℕ)) = false := by
  rw [double_pow_nat hn, gt_ofRat]
  simp

theorem add_one {k : ℕ} (hk : k < 2 ^ 53) :
    add (ofRat k) (ofRat 1) = ofRat (k + 1 : ℕ) := by
  rw [add_ofRat]
  push_cast
  by_cases hlast : k + 1 < 2 ^ 53
  · have hdouble := double_nat hlast
    push_cast at hdouble
    exact hdouble
  · have heq : (k : ℚ) + 1 = 2 ^ 53 := by exact_mod_cast (by omega : k + 1 = 2 ^ 53)
    rw [heq]
    exact double_pow_nat (by decide)

/-- One more than 2 ** 53 is rounded back. -/
theorem add_one_last : add (ofRat (2 ^ 53 : ℕ)) (ofRat 1) = ofRat (2 ^ 53 : ℕ) := by
  have hcast : ((2 ^ 53 : ℕ) : ℚ) + 1 = ((2 ^ 53 + 1 : ℕ) : ℚ) := (Nat.cast_succ _).symm
  have hbits : Nat.log 2 (2 ^ 53 + 1) = 53 :=
    Nat.log_eq_of_pow_le_of_lt_pow (by norm_num) (by norm_num)
  have hlog : Int.log 2 |((2 ^ 53 + 1 : ℕ) : ℚ)| = 53 := by
    rw [abs_of_nonneg (Nat.cast_nonneg _), Int.log_natCast, hbits]
    rfl
  have hulp : ulp ((2 ^ 53 + 1 : ℕ) : ℚ) = 2 := by
    rw [ulp, hlog]
    norm_num
  have hround : roundEven (((2 ^ 53 + 1 : ℕ) : ℚ) / 2) = 2 ^ 52 := by
    have hfloor : ⌊((2 ^ 53 + 1 : ℕ) : ℚ) / 2⌋ = 2 ^ 52 := by
      rw [Int.floor_eq_iff]
      norm_num
    rw [roundEven, hfloor, if_pos (Or.inr (by norm_num))]
  have hne : ((2 ^ 53 + 1 : ℕ) : ℚ) ≠ 0 := by norm_num
  have hvalue : ((2 ^ 52 : ℤ) : ℚ) * 2 = 2 ^ 53 := by norm_num
  have htop : (2 : ℚ) ^ 53 < 2 ^ 1024 := pow_lt_pow_right₀ (by norm_num) (by decide)
  have hbot : -(2 : ℚ) ^ 1024 < 2 ^ 53 :=
    lt_trans (neg_lt_zero.mpr (by positivity)) (by positivity)
  rw [add_ofRat, hcast, double, hulp, hround]
  simp only [if_neg hne, hvalue, if_neg (not_le.mpr htop), if_neg (not_le.mpr hbot)]
  norm_num

variable {J : Js} {groups : List (JsString × JsString)} {r x : JsString} {res : List JsString}

/-- The patterns of a choice that is not skipped. -/
def Chosen (J : Js) (groups : List (JsString × JsString)) (i : ℕ) (r : JsString) : Prop :=
  let x := joinGroups groups (ofRat i)
  startsInPair x = false ∧ endsInPair x = false ∧ (r = J.toLowerCase x ∨ r = J.toUpperCase x)

theorem mem_setAdd : r ∈ setAdd res x ↔ r ∈ res ∨ r = x := by
  unfold setAdd
  split_ifs with hx
  · exact ⟨Or.inl, fun h => h.elim id fun heq => heq ▸ hx⟩
  · rw [List.mem_append, List.mem_singleton]

theorem mem_addChoice : r ∈ addChoice J res x ↔ r ∈ res ∨ (startsInPair x = false
    ∧ endsInPair x = false ∧ (r = J.toLowerCase x ∨ r = J.toUpperCase x)) := by
  unfold addChoice
  by_cases hskip : startsInPair x || endsInPair x
  · rw [if_pos hskip]
    refine (or_iff_left fun h => ?_).symm
    rw [h.1, h.2.1] at hskip
    cases hskip
  · rw [if_neg hskip, mem_setAdd, mem_setAdd, or_assoc]
    rw [Bool.not_eq_true, Bool.or_eq_false_iff] at hskip
    exact or_congr_right ⟨fun h => ⟨hskip.1, hskip.2, h⟩, fun h => h.2.2⟩

/-- With at most 53 runs the loop ends, and has seen every choice. -/
theorem wildcardLoop_spec (hn : groups.length ≤ 53) {k : ℕ} (hk : k ≤ 2 ^ groups.length)
    (res : List JsString) :
    (∃ fuel, (wildcardLoop J groups fuel (ofRat k) res).isSome)
      ∧ ∀ fuel res', wildcardLoop J groups fuel (ofRat k) res = some res' →
        ∀ r, r ∈ res' ↔ r ∈ res ∨ ∃ i, k ≤ i ∧ i < 2 ^ groups.length ∧ Chosen J groups i r := by
  have hpow : 2 ^ groups.length ≤ 2 ^ 53 := Nat.pow_le_pow_right (by decide) hn
  -- from the last number down
  obtain ⟨d, hd⟩ : ∃ d, d = 2 ^ groups.length - k := ⟨_, rfl⟩
  induction d generalizing k res with
  | zero =>
      obtain rfl : k = 2 ^ groups.length := by omega
      have hstop : ∀ fuel, wildcardLoop J groups (fuel + 1) (ofRat (2 ^ groups.length : ℕ)) res
          = some res := by
        intro fuel
        rw [wildcardLoop, gt_double_pow_self (hn.trans_lt (by decide))]
        rfl
      refine ⟨⟨1, by rw [hstop]; rfl⟩, fun fuel res' h r => ?_⟩
      cases fuel with
      | zero => cases h
      | succ fuel =>
          rw [hstop] at h
          cases h
          refine (or_iff_left ?_).symm
          rintro ⟨i, hi, hi', -⟩
          exact absurd hi (not_le.mpr hi')
  | succ d ih =>
      have hlt : k < 2 ^ groups.length := by omega
      have hstep : ∀ fuel, wildcardLoop J groups (fuel + 1) (ofRat k) res
          = wildcardLoop J groups fuel (ofRat (k + 1 : ℕ))
            (addChoice J res (joinGroups groups (ofRat k))) := by
        intro fuel
        rw [wildcardLoop, gt_double_pow hlt, add_one (hlt.trans_le hpow)]
        rfl
      obtain ⟨⟨fuel, hsome⟩, hmem⟩ := ih (k := k + 1) hlt
        (addChoice J res (joinGroups groups (ofRat k))) (by omega)
      refine ⟨⟨fuel + 1, by rw [hstep]; exact hsome⟩, fun fuel res' h r => ?_⟩
      cases fuel with
      | zero => cases h
      | succ fuel =>
          rw [hstep] at h
          rw [hmem fuel res' h r, mem_addChoice, or_assoc]
          refine or_congr_right ⟨?_, ?_⟩
          · rintro (hchosen | ⟨i, hi, hrest⟩)
            · exact ⟨k, le_rfl, hlt, hchosen⟩
            · exact ⟨i, Nat.le_of_succ_le hi, hrest⟩
          · rintro ⟨i, hi, hrest⟩
            rcases Nat.eq_or_lt_of_le hi with rfl | hi
            · exact Or.inl hrest.2
            · exact Or.inr ⟨i, hi, hrest⟩

/-- With more runs it goes on for ever. -/
theorem wildcardLoop_endless (hn : 53 < groups.length) (fuel : ℕ) {k : ℕ} (hk : k ≤ 2 ^ 53)
    (res : List JsString) : wildcardLoop J groups fuel (ofRat k) res = none := by
  induction fuel generalizing k res with
  | zero => rfl
  | succ fuel ih =>
      have hlt : k < 2 ^ groups.length := hk.trans_lt (Nat.pow_lt_pow_right (by decide) hn)
      rw [wildcardLoop, gt_double_pow hlt, if_pos rfl]
      by_cases hlast : k = 2 ^ 53
      · rw [hlast, add_one_last]
        exact ih le_rfl _
      · have hk' : k < 2 ^ 53 := by omega
        rw [add_one hk']
        exact ih hk' _

end Counter

/-! ## Patterns against addresses -/

section Addresses

variable {m : Mac} {r s value : JsString}

theorem hexDigit_iff {c : Nat} : hexDigit c = true
    ↔ (48 ≤ c ∧ c ≤ 57) ∨ (97 ≤ c ∧ c ≤ 102) ∨ (65 ≤ c ∧ c ≤ 70) := decide_eq_true_iff

theorem hexDigit_lower {c : Nat} (h : hexDigit c = true) : hexDigit (lowerUnit c) = true := by
  rw [hexDigit_iff] at h ⊢
  rw [lowerUnit]
  split_ifs <;> omega

theorem colon_not_hex {c : Nat} (h : hexDigit c = true) : c ≠ ':'.toNat := by
  have hcolon : ':'.toNat = 58 := rfl
  rw [hexDigit_iff] at h
  omega

theorem lowerUnit_colon : lowerUnit ':'.toNat = ':'.toNat := by decide

theorem upperUnit_colon : upperUnit ':'.toNat = ':'.toNat := by decide

theorem upperUnit_percent {c : Nat} : upperUnit c = '%'.toNat ↔ c = '%'.toNat := by
  have hpercent : '%'.toNat = 37 := rfl
  rw [upperUnit, hpercent]
  split_ifs <;> omega

theorem lower_upper (c : Nat) : lowerUnit (upperUnit c) = lowerUnit c := by
  unfold lowerUnit upperUnit
  split_ifs <;> omega

theorem upper_lower (c : Nat) : upperUnit (lowerUnit c) = upperUnit c := by
  unfold lowerUnit upperUnit
  split_ifs <;> omega

theorem map_lower_lower (s : JsString) : (s.map lowerUnit).map lowerUnit = s.map lowerUnit := by
  rw [List.map_map]
  refine List.map_congr_left fun c _ => ?_
  simp only [Function.comp_apply, lowerUnit]
  split_ifs <;> omega

theorem map_lower_upper (s : JsString) : (s.map upperUnit).map lowerUnit = s.map lowerUnit := by
  rw [List.map_map]
  exact List.map_congr_left fun c _ => lower_upper c

theorem map_upper_lower (s : JsString) : (s.map lowerUnit).map upperUnit = s.map upperUnit := by
  rw [List.map_map]
  exact List.map_congr_left fun c _ => upper_lower c

/-- A change of case that leaves wildcards alone. -/
theorem Wild.map {g : Nat → Nat} (hg : ∀ c, g c = '%'.toNat ↔ c = '%'.toNat) (h : Wild r s) :
    Wild (r.map g) (s.map g) := by
  induction r generalizing s with
  | nil =>
      obtain rfl : s = [] := Wildcard.matches_nil.mp h
      exact .nil
  | cons c r ih =>
      rw [Wild, List.map_cons] at h
      rw [Wild, List.map_cons, List.map_cons]
      by_cases hc : c = '%'.toNat
      · have htoken : patternToken c = .run := if_pos hc
        have htoken' : patternToken (g c) = .run := if_pos ((hg c).mpr hc)
        rw [htoken] at h
        obtain ⟨u, v, rfl, hv⟩ := Wildcard.matches_run.mp h
        rw [htoken', List.map_append]
        exact Wildcard.matches_run.mpr ⟨u.map g, v.map g, rfl, ih hv⟩
      · have htoken : patternToken c = .unit c := if_neg hc
        have htoken' : patternToken (g c) = .unit (g c) := if_neg (mt (hg c).mp hc)
        rw [htoken] at h
        cases h with
        | unit ht =>
            rw [htoken', List.map_cons]
            exact .unit (ih ht)

theorem Mac.text_cased (m : Mac) : m.text.map lowerUnit = m.text ∨ m.text.map upperUnit = m.text := by
  rw [Mac.text, map_spaced lowerUnit_colon, map_spaced upperUnit_colon]
  exact m.cased.imp (congrArg _) (congrArg _)

/-- A pattern in both cases finds an address just if its letters do. -/
theorem wild_cased : (Wild (r.map lowerUnit) m.text ∨ Wild (r.map upperUnit) m.text)
    ↔ Wild (r.map lowerUnit) (m.text.map lowerUnit) := by
  constructor
  · rintro (h | h)
    · have hmap := h.map fun c => lowerUnit_percent
      rwa [map_lower_lower] at hmap
    · have hmap := h.map fun c => lowerUnit_percent
      rwa [map_lower_upper] at hmap
  · intro h
    rcases m.text_cased with hcase | hcase
    · exact Or.inl (hcase ▸ h)
    · have hmap := h.map fun c => upperUnit_percent
      rw [map_upper_lower, map_upper_lower, hcase] at hmap
      exact Or.inr hmap

theorem lower_hex {p : JsString} (h : ∀ c ∈ p, hexDigit c = true) :
    ∀ c ∈ p.map lowerUnit, hexDigit c = true := by
  intro c hc
  obtain ⟨d, hd, rfl⟩ := List.mem_map.mp hc
  exact hexDigit_lower (h d hd)

theorem no_colon {p : JsString} (h : ∀ c ∈ p, hexDigit c = true) : ':'.toNat ∉ p :=
  fun hmem => colon_not_hex (h _ hmem) rfl

/-- The units of the runs of a pattern. -/
theorem digitRuns_hex (hv : ∀ c ∈ value, hexDigit c = true ∨ c = '%'.toNat) :
    ∀ p ∈ digitRuns value, '%'.toNat ∉ p ∧ ∀ c ∈ p, hexDigit c = true := by
  intro p hp
  have hspec := splitOn_spec p hp
  refine ⟨hspec.1, fun c hc => ?_⟩
  obtain ⟨d, hd, rfl⟩ := List.mem_map.mp (hspec.2 c hc)
  rcases hv d hd with hhex | hpercent
  · exact hexDigit_lower hhex
  · have heq : lowerUnit d = '%'.toNat := lowerUnit_percent.mpr hpercent
    exact absurd (heq ▸ hc) hspec.1

theorem joinGroups_eq (value : JsString) (i : JsNumber) : joinGroups (wildcardGroups value) i
    = ['%'.toNat].intercalate (alignAll ':'.toNat (bitOf i) (value.splitOn '%'.toNat)) := by
  have hgroups : ∀ (f : ℕ → Bool) (parts : List JsString),
      (parts.map fun p => (pairs p, shiftedPairs p)).mapIdx (fun j g => if f j then g.2 else g.1)
        = alignAll ':'.toNat f parts := by
    intro f parts
    induction parts generalizing f with
    | nil => rfl
    | cons p parts ih =>
        have hhead : (if f 0 then shiftedPairs p else pairs p) = spaced ':'.toNat (f 0) p := by
          rw [pairs_eq, shiftedPairs_eq]
          cases f 0 <;> rfl
        rw [List.map_cons, List.mapIdx_cons, alignAll_cons, ih, hhead]
  rw [joinGroups, wildcardGroups, hgroups]

theorem map_alignAll {f : ℕ → Bool} {g : Nat → Nat} (hg : g ':'.toNat = ':'.toNat)
    (parts : List JsString) : (alignAll ':'.toNat f parts).map (·.map g)
      = alignAll ':'.toNat f (parts.map (·.map g)) := by
  induction parts generalizing f with
  | nil => rfl
  | cons p parts ih =>
      rw [alignAll_cons, List.map_cons, List.map_cons, alignAll_cons, ih, map_spaced hg]

/-- The pattern of a choice, in lower case, against an address in lower case. -/
theorem wild_choice (hv : ∀ c ∈ value, hexDigit c = true ∨ c = '%'.toNat) (i : JsNumber) :
    Wild ((joinGroups (wildcardGroups value) i).map lowerUnit) (m.text.map lowerUnit)
      ↔ Fits (bitOf i) false (digitRuns value) (m.digits.map lowerUnit) := by
  have hruns := digitRuns_hex hv
  have hpercent : ∀ p ∈ alignAll ':'.toNat (bitOf i) (digitRuns value), '%'.toNat ∉ p := by
    intro p hp hmem
    obtain ⟨j, hj, rfl⟩ := List.mem_mapIdx.mp hp
    rcases mem_spaced hmem with hcolon | hmem
    · exact absurd hcolon (by decide)
    · exact (hruns _ (List.getElem_mem hj)).1 hmem
  have hne : alignAll ':'.toNat (bitOf i) (digitRuns value) ≠ [] := by
    rw [alignAll, ne_eq, List.mapIdx_eq_nil_iff]
    exact List.splitOn_ne_nil _ _
  rw [joinGroups_eq, map_intercalate (by decide), map_alignAll lowerUnit_colon, ← digitRuns_eq,
    wild_intercalate hne hpercent, Mac.text, map_spaced lowerUnit_colon]
  exact joined_spaced (fun p hp => no_colon (hruns p hp).2) (no_colon (lower_hex m.hex))

/-- A pattern that begins inside a pair finds no digits in pairs. -/
theorem not_wild_of_startsInPair {digits : JsString} (hlen : 2 ≤ digits.length)
    (hhex : ∀ c ∈ digits, hexDigit c = true) (h : startsInPair r = true) :
    ¬ Wild (r.map lowerUnit) (spaced ':'.toNat false digits) := by
  match r, digits, h, hlen with
  | a :: b :: r, c :: d :: digits, h, _ =>
      intro hwild
      obtain ⟨ha, hb⟩ := Bool.and_eq_true_iff.mp h
      have hb : b = ':'.toNat := of_decide_eq_true hb
      have htoken : ∀ {c : Nat}, c ≠ '%'.toNat →
          patternToken (lowerUnit c) = .unit (lowerUnit c) := fun hc =>
        if_neg (mt lowerUnit_percent.mp hc)
      have ha' : a ≠ '%'.toNat := by
        have hpercent : '%'.toNat = 37 := rfl
        rw [hexDigit_iff] at ha
        omega
      have hb' : b ≠ '%'.toNat := by
        rw [hb]
        decide
      have htext : spaced ':'.toNat false (c :: d :: digits)
          = c :: d :: after ':'.toNat false digits := by
        rw [spaced_cons]
        show c :: spaced ':'.toNat true (d :: digits) = _
        rw [spaced_cons]
        rfl
      rw [htext, Wild, List.map_cons, List.map_cons, List.map_cons, List.map_cons, htoken ha',
        htoken hb'] at hwild
      cases hwild with
      | unit hwild =>
          generalize hcolon : lowerUnit b = x at hwild
          cases hwild with
          | unit =>
              rw [hb, lowerUnit_colon] at hcolon
              exact colon_not_hex (hhex d (by simp)) hcolon.symm

theorem Mac.exists_digits (m : Mac) : ∃ a b c d e f g h i j k l,
    m.digits = [a, b, c, d, e, f, g, h, i, j, k, l] := by
  match hd : m.digits, m.length with
  | [a, b, c, d, e, f, g, h, i, j, k, l], _ => exact ⟨a, b, c, d, e, f, g, h, i, j, k, l, rfl⟩

theorem Mac.text_reverse (m : Mac) :
    (m.text).reverse = spaced ':'.toNat false m.digits.reverse := by
  obtain ⟨a, b, c, d, e, f, g, h, i, j, k, l, hd⟩ := m.exists_digits
  rw [Mac.text, hd]
  rfl

/-- What is skipped would not find an address. -/
theorem not_wild_of_skipped (h : startsInPair r = true ∨ endsInPair r = true) :
    ¬ Wild (r.map lowerUnit) (m.text.map lowerUnit) := by
  have hhex := lower_hex m.hex
  rcases h with h | h
  · rw [Mac.text, map_spaced lowerUnit_colon]
    refine not_wild_of_startsInPair ?_ hhex h
    rw [List.length_map, m.length]
    decide
  · intro hwild
    have hrev := Wildcard.Matches.reverse hwild
    rw [← List.map_reverse, ← List.map_reverse, ← List.map_reverse, m.text_reverse,
      map_spaced lowerUnit_colon] at hrev
    refine not_wild_of_startsInPair ?_ ?_ h hrev
    · rw [List.length_map, List.length_reverse, m.length]
      decide
    · exact lower_hex fun c hc => m.hex c (List.mem_reverse.mp hc)

/-! ## What the queries find -/

variable {J : Js} {obj : Lookup} {now : Option ℚ} {param : Expr}

theorem hexDigit_searchable {c : Nat} (h : hexDigit c = true) : Searchable c := Or.inl h

theorem searchable_map {p : JsString} (h : ∀ c ∈ p, Searchable c) :
    (∀ c ∈ p.map lowerUnit, Searchable c) ∧ ∀ c ∈ p.map upperUnit, Searchable c := by
  have hcolon : ':'.toNat = 58 := rfl
  have hpercent : '%'.toNat = 37 := rfl
  have hiff : ∀ c, Searchable c ↔ (48 ≤ c ∧ c ≤ 57) ∨ (97 ≤ c ∧ c ≤ 102) ∨ (65 ≤ c ∧ c ≤ 70)
      ∨ c = 58 ∨ c = 37 := by
    intro c
    rw [Searchable, hexDigit_iff, hcolon, hpercent, or_assoc, or_assoc]
  constructor <;>
  · intro c hc
    obtain ⟨d, hd, rfl⟩ := List.mem_map.mp hc
    have hbounds := (hiff d).mp (h d hd)
    rw [hiff]
    simp only [lowerUnit, upperUnit]
    split_ifs <;> omega

theorem Mac.text_searchable (m : Mac) : ∀ c ∈ m.text, Searchable c := by
  intro c hc
  rcases mem_spaced hc with hcolon | hc
  · exact Or.inr (Or.inl hcolon)
  · exact Or.inl (m.hex c hc)

theorem Standard.lower_eq (hJ : Standard J) (hr : ∀ c ∈ r, Searchable c) :
    J.toLowerCase r = r.map lowerUnit := hJ.lower r fun c hc => (hr c hc).bounds.1

theorem Standard.upper_eq (hJ : Standard J) (hr : ∀ c ∈ r, Searchable c) :
    J.toUpperCase r = r.map upperUnit := hJ.upper r fun c hc => (hr c hc).bounds.1

theorem wildClauses_trueIff (hJ : Standard J)
    (hparam : evaluate J param (some obj) now id = .ok (.lit (some (.str s))))
    (hs : ∀ c ∈ s, Searchable c) {rs : List JsString} (hrs : ∀ r ∈ rs, ∀ c ∈ r, Searchable c) :
    TrueIff J obj now (.app .or (rs.map (likeClause param))) (∃ r ∈ rs, Wild r s) :=
  TrueIff.or fun r hr => likeClause_trueIff hJ hparam (hrs r hr) hs

/-- A value that is searched for as it stands. -/
theorem queryStringMonoCase_trueIff (hJ : Standard J)
    (hparam : evaluate J param (some obj) now id = .ok (.lit (some (.str m.text))))
    (hr : ∀ c ∈ r, Searchable c) : TrueIff J obj now (queryStringMonoCase J param r)
      (Wild (r.map lowerUnit) (m.text.map lowerUnit)) := by
  have hsearch := searchable_map hr
  have hclauses := wildClauses_trueIff hJ hparam m.text_searchable
    (List.forall_mem_cons.mpr ⟨hsearch.1, List.forall_mem_singleton.mpr hsearch.2⟩)
  rw [queryStringMonoCase, hJ.lower_eq hr, hJ.upper_eq hr]
  refine hclauses.congr (Iff.trans ?_ wild_cased)
  simp

/-- The pattern of a choice is a pattern. -/
theorem joinGroups_searchable (hv : ∀ c ∈ value, hexDigit c = true ∨ c = '%'.toNat)
    (i : JsNumber) : ∀ c ∈ joinGroups (wildcardGroups value) i, Searchable c := by
  have hjoin : ∀ parts : List JsString, (∀ p ∈ parts, ∀ c ∈ p, Searchable c) →
      ∀ c ∈ ['%'.toNat].intercalate parts, Searchable c := by
    intro parts
    induction parts with
    | nil => exact fun _ c hc => absurd hc List.not_mem_nil
    | cons p parts ih =>
        intro hparts c hc
        obtain ⟨hp, hrest⟩ := List.forall_mem_cons.mp hparts
        cases parts with
        | nil =>
            rw [List.intercalate_singleton] at hc
            exact hp c hc
        | cons q parts =>
            rw [List.intercalate_cons_cons, List.mem_append, List.mem_append] at hc
            rcases hc with (hc | hc) | hc
            · exact hp c hc
            · exact Or.inr (Or.inr (List.mem_singleton.mp hc))
            · exact ih hrest c hc
  rw [joinGroups_eq]
  refine hjoin _ fun p hp c hc => ?_
  obtain ⟨j, hj, rfl⟩ := List.mem_mapIdx.mp hp
  rcases mem_spaced hc with hcolon | hc
  · exact Or.inr (Or.inl hcolon)
  · exact (hv c ((splitOn_spec _ (List.getElem_mem hj)).2 c hc)).imp_right Or.inr

/-- The choices are those that break runs 32 apart in the same way. -/
theorem exists_choice {parts : List JsString} :
    (∃ b : ℕ → Bool, Fits (fun j => b (j % 32)) false parts s)
      ↔ ∃ i : ℕ, i < 2 ^ parts.length ∧ Fits (bitOf (ofRat i)) false parts s := by
  constructor
  · rintro ⟨b, hb⟩
    refine ⟨Nat.ofBits fun k : Fin (min parts.length 32) => b k, ?_, ?_⟩
    · exact (Nat.ofBits_lt_two_pow _).trans_le
        (Nat.pow_le_pow_right (by decide) (Nat.min_le_left _ _))
    · refine hb.congr fun j hj => ?_
      have hlt : j % 32 < min parts.length 32 :=
        lt_min ((Nat.mod_le j 32).trans_lt hj) (Nat.mod_lt j (by decide))
      rw [bitOf_nat, Nat.testBit_ofBits_lt _ _ hlt]
  · rintro ⟨i, -, hi⟩
    exact ⟨i.testBit, hi.congr fun j _ => bitOf_nat i j⟩

/-- The patterns of all choices find an address if one choice fits its digits. -/
theorem wild_chosen (hJ : Standard J) (hv : ∀ c ∈ value, hexDigit c = true ∨ c = '%'.toNat) (i : ℕ) :
    (∃ r, Chosen J (wildcardGroups value) i r ∧ Wild r m.text)
      ↔ Fits (bitOf (ofRat i)) false (digitRuns value) (m.digits.map lowerUnit) := by
  rw [← wild_choice hv]
  have hsearch := joinGroups_searchable hv (ofRat i)
  constructor
  · rintro ⟨r, ⟨-, -, hr⟩, hwild⟩
    rw [hJ.lower_eq hsearch, hJ.upper_eq hsearch] at hr
    rcases hr with rfl | rfl
    · exact wild_cased.mp (Or.inl hwild)
    · exact wild_cased.mp (Or.inr hwild)
  · intro hwild
    have hstart := mt (fun h => not_wild_of_skipped (m := m) (Or.inl h)) (not_not.mpr hwild)
    have hend := mt (fun h => not_wild_of_skipped (m := m) (Or.inr h)) (not_not.mpr hwild)
    rw [Bool.not_eq_true] at hstart hend
    rcases wild_cased.mpr hwild with h | h
    · exact ⟨_, ⟨hstart, hend, Or.inl (hJ.lower_eq hsearch).symm⟩, h⟩
    · exact ⟨_, ⟨hstart, hend, Or.inr (hJ.upper_eq hsearch).symm⟩, h⟩

theorem length_groups (value : JsString) :
    (wildcardGroups value).length = (digitRuns value).length := by
  rw [wildcardGroups, digitRuns_eq, List.length_map, List.length_map]

/-- A value that is found as it stands has no colon in its runs. -/
theorem fits_of_wild (hv : ∀ c ∈ value, hexDigit c = true ∨ c = '%'.toNat)
    (h : Wild (value.map lowerUnit) (m.text.map lowerUnit)) :
    Fits (fun _ => false) false (digitRuns value) (m.digits.map lowerUnit) := by
  have hruns := digitRuns_hex hv
  have hcolon : ∀ p ∈ digitRuns value, ':'.toNat ∉ p := fun p hp => no_colon (hruns p hp).2
  have hdigits := no_colon (lower_hex m.hex)
  rw [← intercalate_digitRuns, wild_intercalate (digitRuns_ne_nil value) fun p hp => (hruns p hp).1,
    Mac.text, map_spaced lowerUnit_colon] at h
  refine (joined_spaced hcolon hdigits).mp ?_
  rw [h.alignAll_eq hcolon hdigits]
  exact h

/-- Whatever the loop has collected, the expression is true where a choice fits. -/
theorem queryMacWildcard_trueIff (hJ : Standard J)
    (hparam : evaluate J param (some obj) now id = .ok (.lit (some (.str m.text))))
    (hv : ∀ c ∈ value, hexDigit c = true ∨ c = '%'.toNat) (hn : (digitRuns value).length ≤ 53) :
    (∃ fuel, (queryMacWildcard J fuel param value).isSome)
      ∧ ∀ fuel e, queryMacWildcard J fuel param value = some e → TrueIff J obj now e
        (∃ b : ℕ → Bool, Fits (fun j => b (j % 32)) false (digitRuns value)
          (m.digits.map lowerUnit)) := by
  have hsearch : ∀ c ∈ value, Searchable c := fun c hc => (hv c hc).imp_right Or.inr
  have hmono := queryStringMonoCase_trueIff hJ hparam hsearch
  have hfits : Wild (value.map lowerUnit) (m.text.map lowerUnit) → ∃ b : ℕ → Bool,
      Fits (fun j => b (j % 32)) false (digitRuns value) (m.digits.map lowerUnit) := fun h =>
    ⟨fun _ => false, fits_of_wild hv h⟩
  by_cases hnil : value = []
  · have hquery : ∀ fuel, queryMacWildcard J fuel param value
        = some (queryStringMonoCase J param value) := fun fuel => if_pos (Or.inl hnil)
    refine ⟨⟨0, by rw [hquery]; rfl⟩, fun fuel e h => ?_⟩
    rw [hquery] at h
    cases h
    refine hmono.congr ⟨hfits, ?_⟩
    rintro ⟨b, hb⟩
    rw [hnil] at hb
    have hempty : m.digits.map lowerUnit = [] := hb.1
    have hlen := m.length
    rw [List.map_eq_nil_iff.mp hempty] at hlen
    cases hlen
  have hall : value.all (fun c => hexDigit c || c = '%'.toNat) = true := by
    rw [List.all_eq_true]
    intro c hc
    rw [Bool.or_eq_true, decide_eq_true_iff]
    exact hv c hc
  have hquery : ∀ fuel, queryMacWildcard J fuel param value
      = (wildcardLoop J (wildcardGroups value) fuel (ofRat 0) []).map fun res =>
        match res with
        | [] => queryStringMonoCase J param value
        | [r] => likeClause param r
        | res => .app .or (res.map (likeClause param)) := fun fuel =>
    if_neg (not_or.mpr ⟨hnil, not_not.mpr hall⟩)
  obtain ⟨⟨fuel, hsome⟩, hmem⟩ := wildcardLoop_spec (J := J) ((length_groups value).le.trans hn)
    (Nat.zero_le _) []
  rw [Nat.cast_zero] at hsome hmem
  refine ⟨⟨fuel, by rw [hquery, Option.isSome_map]; exact hsome⟩, fun fuel e h => ?_⟩
  rw [hquery, Option.map_eq_some_iff] at h
  obtain ⟨res, hres, rfl⟩ := h
  have hspec := hmem fuel res hres
  have hchoice : (∃ r ∈ res, Wild r m.text) ↔ ∃ b : ℕ → Bool,
      Fits (fun j => b (j % 32)) false (digitRuns value) (m.digits.map lowerUnit) := by
    rw [exists_choice]
    constructor
    · rintro ⟨r, hr, hwild⟩
      obtain hr | ⟨i, -, hi, hr⟩ := (hspec r).mp hr
      · cases hr
      · exact ⟨i, length_groups value ▸ hi, (wild_chosen hJ hv i).mp ⟨r, hr, hwild⟩⟩
    · rintro ⟨i, hi, hfit⟩
      obtain ⟨r, hr, hwild⟩ := (wild_chosen hJ hv i).mpr hfit
      exact ⟨r, (hspec r).mpr (Or.inr ⟨i, Nat.zero_le i, (length_groups value).symm ▸ hi, hr⟩), hwild⟩
  have hclauses : ∀ r ∈ res, ∀ c ∈ r, Searchable c := by
    intro r hr
    obtain hr | ⟨i, -, -, -, -, hr⟩ := (hspec r).mp hr
    · cases hr
    · have hx := joinGroups_searchable hv (ofRat i)
      rw [hJ.lower_eq hx, hJ.upper_eq hx] at hr
      rcases hr with rfl | rfl
      · exact (searchable_map hx).1
      · exact (searchable_map hx).2
  match res with
  | [] =>
      refine hmono.congr ⟨hfits, fun h => ?_⟩
      obtain ⟨r, hr, -⟩ := hchoice.mpr h
      cases hr
  | [r] =>
      have hone := likeClause_trueIff hJ hparam (hclauses r List.mem_cons_self) m.text_searchable
      exact hone.congr (Iff.trans (by simp) hchoice)
  | r :: r' :: res =>
      exact (wildClauses_trueIff hJ hparam m.text_searchable hclauses).congr hchoice

/-- The wildcard query is right on an address just if its runs can be told apart. -/
theorem queryMacWildcard_right (hJ : Standard J)
    (hparam : evaluate J param (some obj) now id = .ok (.lit (some (.str m.text))))
    (hv : ∀ c ∈ value, hexDigit c = true ∨ c = '%'.toNat) :
    (∃ fuel e, queryMacWildcard J fuel param value = some e
        ∧ TrueIff J obj now e (DigitsMatch value m.digits)) ↔ Separable value m.digits := by
  have hsound : ∀ {b : ℕ → Bool}, Fits (fun j => b (j % 32)) false (digitRuns value)
      (m.digits.map lowerUnit) → DigitsMatch value m.digits := fun h =>
    digitsMatch_iff.mpr h.joined
  have hright : (digitRuns value).length ≤ 53 → ((∃ fuel e,
      queryMacWildcard J fuel param value = some e
        ∧ TrueIff J obj now e (DigitsMatch value m.digits)) ↔ (DigitsMatch value m.digits →
          ∃ b : ℕ → Bool, Fits (fun j => b (j % 32)) false (digitRuns value)
            (m.digits.map lowerUnit))) := by
    intro hn
    obtain ⟨⟨fuel, hsome⟩, htrue⟩ := queryMacWildcard_trueIff hJ hparam hv hn
    constructor
    · rintro ⟨fuel', e, he, hmatch⟩
      exact ((htrue fuel' e he).unique hmatch).mpr
    · intro h
      obtain ⟨e, he⟩ := Option.isSome_iff_exists.mp hsome
      exact ⟨fuel, e, he, (htrue fuel e he).congr ⟨fun ⟨b, hb⟩ => hsound hb, h⟩⟩
  rw [Separable]
  by_cases hfew : (digitRuns value).length ≤ 32
  · refine (hright (hfew.trans (by decide))).trans (iff_of_true (fun h => ?_) (Or.inl hfew))
    obtain ⟨f, hf⟩ := (digitsMatch_iff.mp h).exists_fits false
    exact ⟨f, hf.congr fun j hj => congrArg f (Nat.mod_eq_of_lt (hj.trans_le hfew)).symm⟩
  · rw [or_iff_right hfew]
    by_cases hn : (digitRuns value).length ≤ 53
    · rw [hright hn, and_iff_right hn]
    · refine iff_of_false ?_ fun h => hn h.1
      rintro ⟨fuel, e, he, -⟩
      have hnil : value ≠ [] := by
        rintro rfl
        exact hn (by decide)
      have hall : value.all (fun c => hexDigit c || c = '%'.toNat) = true := by
        rw [List.all_eq_true]
        intro c hc
        rw [Bool.or_eq_true, decide_eq_true_iff]
        exact hv c hc
      have hmany : 53 < (wildcardGroups value).length := by
        rw [length_groups]
        omega
      have hloop := wildcardLoop_endless (J := J) hmany fuel (Nat.zero_le _) []
      rw [Nat.cast_zero] at hloop
      rw [queryMacWildcard, if_neg (not_or.mpr ⟨hnil, not_not.mpr hall⟩), hloop] at he
      cases he

/-! ## Fragments -/

theorem evaluate_lower (hparam : evaluate J param (some obj) now id = .ok (.lit (some (.str s)))) :
    evaluate J (.app .func [.lit (some (.str (js "LOWER"))), param]) (some obj) now id
      = .ok (.lit (some (.str (J.toLowerCase s)))) := by
  have hfunc : evaluateFunc J [.lit (some (.str (js "LOWER"))), .lit (some (.str s))]
      = .lit (some (.str (J.toLowerCase s))) := by
    have hcoalesce : Expr.lit (some (.str (js "LOWER"))) ≠ .lit (some (.str (js "COALESCE"))) := by
      decide
    have hupper : Expr.lit (some (.str (js "LOWER"))) ≠ .lit (some (.str (js "UPPER"))) := by decide
    have harg : arg [Expr.lit (some (.str (js "LOWER"))), .lit (some (.str s))] 0
        = .lit (some (.str (js "LOWER"))) := rfl
    rw [evaluateFunc, harg, if_neg hcoalesce, if_neg hupper, if_pos rfl]
    rfl
  have hnow : Expr.lit (some (.str (js "LOWER"))) ≠ .lit (some (.str (js "NOW"))) := by decide
  rw [evaluate_app (List.Forall₂.cons (evaluate_lit (some (.str (js "LOWER"))))
    (List.Forall₂.cons hparam List.Forall₂.nil))]
  cases now with
  | none => exact congrArg Except.ok hfunc
  | some t =>
      have hcall : ¬ (Expr.lit (some (.str (js "LOWER"))) = .lit (some (.str (js "NOW"))) ∧ t ≠ 0) :=
        fun h => hnow h.1
      show (if Expr.lit (some (.str (js "LOWER"))) = .lit (some (.str (js "NOW"))) ∧ t ≠ 0
        then (pure (.lit (some (.num t))) : Except JsError Expr)
        else evaluateCallback J .func _) = _
      rw [if_neg hcall]
      exact congrArg Except.ok hfunc

theorem eqClause_trueIff
    (hparam : evaluate J param (some obj) now id = .ok (.lit (some (.str s)))) (x : JsString) :
    TrueIff J obj now (.app .eq [param, .lit (some (.str x))]) (s = x) := by
  refine ⟨_, Means.compare .eq hparam (evaluate_lit (some (.str x))), ?_⟩
  show ((Value.compare (.str s) (.str x) == .eq) = true) ↔ s = x
  rw [beq_iff_eq]
  exact compareLt_eq_eq

/-- Around a part there may be anything. -/
theorem fits_between {odd : Bool} {p : JsString} : Fits (fun _ => odd) false [[], p, []] s
    ↔ ∃ before after, s = before ++ (p ++ after) ∧ (2 ≤ p.length → odd = before.length.bodd) := by
  constructor
  · rintro ⟨before, t, rfl, -, after, t', rfl, hodd, rfl, -⟩
    refine ⟨before, after, by simp, fun hlen => ?_⟩
    simpa using hodd hlen
  · rintro ⟨before, after, rfl, hodd⟩
    refine ⟨before, p ++ after, rfl, fun hlen => absurd hlen (by simp), after, [], by simp,
      fun hlen => ?_, rfl, fun hlen => absurd hlen (by simp)⟩
    simpa using hodd hlen

/-- A fragment in one of both ways is in an address just if it is in the digits. -/
theorem wild_fragment {p : JsString} (hp : ∀ c ∈ p, hexDigit c = true) :
    (∃ x ∈ [pairs p, shiftedPairs p],
        Wild ('%'.toNat :: (x ++ ['%'.toNat])) (m.text.map lowerUnit))
      ↔ p <:+: m.digits.map lowerUnit := by
  have hpercent : '%'.toNat ∉ p := by
    intro hmem
    exact absurd (hp _ hmem) (by decide)
  have hone : ∀ odd : Bool, Wild ('%'.toNat :: (spaced ':'.toNat odd p ++ ['%'.toNat]))
      (m.text.map lowerUnit)
        ↔ Fits (fun _ => odd) false [[], p, []] (m.digits.map lowerUnit) := by
    intro odd
    have hjoin : '%'.toNat :: (spaced ':'.toNat odd p ++ ['%'.toNat])
        = ['%'.toNat].intercalate (alignAll ':'.toNat (fun _ => odd) [[], p, []]) := by
      rw [alignAll_cons, alignAll_cons, alignAll_cons, List.intercalate_cons_cons,
        spaced_eq_nil.mpr rfl]
      rfl
    have hparts : ∀ q ∈ [[], p, []], ':'.toNat ∉ q := by
      simpa using no_colon hp
    rw [hjoin, wild_intercalate (by rw [alignAll_cons]; exact List.cons_ne_nil _ _), Mac.text,
      map_spaced lowerUnit_colon]
    · exact joined_spaced hparts (no_colon (lower_hex m.hex))
    · intro q hq hmem
      obtain ⟨j, hj, rfl⟩ := List.mem_mapIdx.mp hq
      rcases mem_spaced hmem with hcolon | hmem
      · exact absurd hcolon (by decide)
      · have hall : ∀ q ∈ [[], p, []], '%'.toNat ∉ q := by simpa using hpercent
        exact hall _ (List.getElem_mem hj) hmem
  rw [pairs_eq, shiftedPairs_eq, List.exists_mem_cons_iff, hone]
  simp only [List.mem_singleton, exists_eq_left, hone, fits_between]
  constructor
  · rintro (⟨before, after, h, -⟩ | ⟨before, after, h, -⟩)
    · exact ⟨before, after, by rw [h, List.append_assoc]⟩
    · exact ⟨before, after, by rw [h, List.append_assoc]⟩
  · rintro ⟨before, after, h⟩
    rw [List.append_assoc] at h
    cases hodd : before.length.bodd with
    | false => exact Or.inl ⟨before, after, h.symm, fun _ => hodd.symm⟩
    | true => exact Or.inr ⟨before, after, h.symm, fun _ => hodd.symm⟩

theorem spaced_inj {p q : JsString} (hp : ':'.toNat ∉ p) (hq : ':'.toNat ∉ q) :
    spaced ':'.toNat false p = spaced ':'.toNat false q ↔ p = q := by
  constructor
  · intro h
    rw [← filter_spaced hp, h, filter_spaced hq]
  · exact congrArg _

/-- All the digits at once. -/
theorem text_eq_iff {p : JsString} (hp : ∀ c ∈ p, hexDigit c = true)
    (hlower : p.map lowerUnit = p) : (∃ x ∈ [(pairs p).map lowerUnit, (pairs p).map upperUnit],
      m.text = x) ↔ m.digits.map lowerUnit = p := by
  have hupperHex : ∀ c ∈ p.map upperUnit, hexDigit c = true := by
    intro c hc
    obtain ⟨d, hd, rfl⟩ := List.mem_map.mp hc
    have hbounds := hexDigit_iff.mp (hp d hd)
    rw [hexDigit_iff]
    unfold upperUnit
    split_ifs <;> omega
  rw [pairs_eq, map_spaced lowerUnit_colon, map_spaced upperUnit_colon, hlower,
    List.exists_mem_cons_iff]
  simp only [List.mem_singleton, exists_eq_left]
  rw [Mac.text, spaced_inj (no_colon m.hex) (no_colon hp),
    spaced_inj (no_colon m.hex) (no_colon hupperHex)]
  constructor
  · rintro (h | h)
    · rw [h, hlower]
    · rw [h, map_lower_upper, hlower]
  · intro h
    rcases m.cased with hcase | hcase
    · exact Or.inl (hcase.symm.trans h)
    · right
      rw [← h, map_upper_lower, hcase]

/-- A fragment is found just in the addresses that have it. -/
theorem queryMac_right (hJ : Standard J)
    (hparam : evaluate J param (some obj) now id = .ok (.lit (some (.str m.text))))
    {fragment : JsString} (hne : fragment ≠ []) (hhex : ∀ c ∈ fragment, hexDigit c = true) :
    ∃ e, queryMac J param fragment = some e ∧ TrueIff J obj now e
      (fragment.map lowerUnit <:+: m.digits.map lowerUnit) := by
  have hsearch : ∀ c ∈ fragment, Searchable c := fun c hc => hexDigit_searchable (hhex c hc)
  have hp := lower_hex hhex
  have hvalue : J.toLowerCase (fragment.filter hexDigit) = fragment.map lowerUnit := by
    rw [List.filter_eq_self.mpr hhex, hJ.lower_eq hsearch]
  have hpne : fragment.map lowerUnit ≠ [] := mt List.map_eq_nil_iff.mp hne
  have hpairs : ∀ odd : Bool, ∀ c ∈ spaced ':'.toNat odd (fragment.map lowerUnit), Searchable c := by
    intro odd c hc
    rcases mem_spaced hc with hcolon | hc
    · exact Or.inr (Or.inl hcolon)
    · exact hexDigit_searchable (hp c hc)
  by_cases hlen : (fragment.map lowerUnit).length = 12
  · have hpairs' : ∀ c ∈ pairs (fragment.map lowerUnit), Searchable c := by
      rw [pairs_eq]
      exact hpairs false
    have hquery : queryMac J param fragment = some (.app .or
        ([(pairs (fragment.map lowerUnit)).map lowerUnit,
          (pairs (fragment.map lowerUnit)).map upperUnit].map fun x =>
            .app .eq [param, .lit (some (.str x))])) := by
      rw [queryMac, hvalue]
      simp only [if_neg hpne, if_pos hlen]
      rw [hJ.lower_eq hpairs', hJ.upper_eq hpairs']
      rfl
    refine ⟨_, hquery, (TrueIff.or fun x _ => eqClause_trueIff hparam x).congr ?_⟩
    rw [text_eq_iff hp (map_lower_lower fragment)]
    constructor
    · intro h
      rw [h]
    · intro h
      refine (h.eq_of_length ?_).symm
      rw [hlen, List.length_map, m.length]
  · have hquery : queryMac J param fragment = some (.app .or
        ([pairs (fragment.map lowerUnit), shiftedPairs (fragment.map lowerUnit)].map fun x =>
          likeClause (.app .func [.lit (some (.str (js "LOWER"))), param])
            ('%'.toNat :: (x ++ ['%'.toNat])))) := by
      rw [queryMac, hvalue]
      simp only [if_neg hpne, if_neg hlen]
      rfl
    have hlower := evaluate_lower hparam
    rw [hJ.lower_eq m.text_searchable] at hlower
    refine ⟨_, hquery, (TrueIff.or fun x hx => ?_).congr (wild_fragment hp)⟩
    refine likeClause_trueIff hJ hlower (fun c hc => ?_) (searchable_map m.text_searchable).1
    have hwild : Searchable '%'.toNat := Or.inr (Or.inr rfl)
    rw [List.mem_cons, List.mem_append, List.mem_singleton] at hc
    rcases hc with rfl | hc | rfl
    · exact hwild
    · rw [pairs_eq, shiftedPairs_eq] at hx
      simp only [List.mem_cons, List.not_mem_nil, or_false] at hx
      rcases hx with rfl | rfl
      · exact hpairs false c hc
      · exact hpairs true c hc
    · exact hwild

/-- Fragments are found just where they are. A pattern is found just where it
matches if its runs can be told apart. -/
theorem queryMac_iff (hJ : Standard J) (m : Mac)
    (hparam : evaluate J param (some obj) now id = .ok (.lit (some (.str m.text)))) :
    (∀ fragment : JsString, fragment ≠ [] → (∀ c ∈ fragment, hexDigit c = true) →
      ∃ e, queryMac J param fragment = some e ∧ TrueIff J obj now e
        (fragment.map lowerUnit <:+: m.digits.map lowerUnit))
      ∧ ∀ pattern : JsString, (∀ c ∈ pattern, hexDigit c = true ∨ c = '%'.toNat) →
        ((∃ fuel e, queryMacWildcard J fuel param pattern = some e
          ∧ TrueIff J obj now e (DigitsMatch pattern m.digits))
            ↔ Separable pattern m.digits) :=
  ⟨fun _ hne hhex => queryMac_right hJ hparam hne hhex,
    fun _ hv => queryMacWildcard_right hJ hparam hv⟩

end Addresses

/-! ## An address and a pattern of 34 runs -/

/-- ASCII, and the expressions that are read. -/
noncomputable def asciiStandard : Js :=
  { idleJs with
    toLowerCase := List.map lowerUnit
    toUpperCase := List.map upperUnit
    test := fun source v =>
      match v with
      | .str s => @decide (RegExp.Finds Like.javascript source s) (Classical.propDecidable _)
      | _ => false }

theorem asciiStandard_standard : Standard asciiStandard where
  lower := fun _ _ => rfl
  upper := fun _ _ => rfl
  test := fun _ _ h _ =>
    (@decide_eq_true_iff _ (Classical.propDecidable _)).trans (RegExp.finds_iff h)

/-- `ab:1c:d2:33:44:55`. -/
def address : Mac where
  digits := js "ab1cd2334455"
  length := by decide
  hex := by decide
  cased := by decide

/-- A row with the address. -/
def addressRow : Lookup := fun _ => some (.str address.text)

theorem queryMac_iff_address :
    (∃ e, queryMac asciiStandard (.ofParam (js "mac")) (js "Cd2") = some e
      ∧ TrueIff asciiStandard addressRow none e
        ((js "Cd2").map lowerUnit <:+: address.digits.map lowerUnit))
      ∧ ((∃ fuel e, queryMacWildcard asciiStandard fuel (.ofParam (js "mac")) (js "aB%D2%") = some e
        ∧ TrueIff asciiStandard addressRow none e (DigitsMatch (js "aB%D2%") address.digits))
          ↔ Separable (js "aB%D2%") address.digits) :=
  have h := queryMac_iff asciiStandard_standard address
    (@Means.evaluate_param asciiStandard addressRow none (js "mac"))
  ⟨h.1 (js "Cd2") (by decide) (by decide), h.2 (js "aB%D2%") (by decide)⟩

/-- `ab`, 32 wildcards, `cd` and a wildcard. -/
def manyWildcards : JsString :=
  js "ab" ++ (List.replicate 32 '%'.toNat ++ js "cd%")

theorem manyWildcards_match : DigitsMatch manyWildcards address.digits := by
  have hskip : ∀ (n : ℕ) {p : List (Wildcard.Token Nat)} {s : JsString}, Wildcard.Matches p s →
      Wildcard.Matches (List.replicate n .run ++ p) s := by
    intro n
    induction n with
    | zero => exact fun h => h
    | succ n ih => exact fun h => .skip (ih h)
  have htokens : (manyWildcards.map lowerUnit).map patternToken
      = .unit 'a'.toNat :: .unit 'b'.toNat :: .run :: (List.replicate 31 .run
        ++ [.unit 'c'.toNat, .unit 'd'.toNat, .run]) := by
    decide
  have hdigits : address.digits.map lowerUnit
      = 'a'.toNat :: 'b'.toNat :: '1'.toNat :: 'c'.toNat :: 'd'.toNat :: js "2334455" := by
    decide
  have hend : Wildcard.Matches [.run] (js "2334455") :=
    Wildcard.matches_run.mpr ⟨_, [], (List.append_nil _).symm, .nil⟩
  rw [DigitsMatch, htokens, hdigits]
  exact .unit (.unit (.take (.skip (hskip 31 (.unit (.unit hend))))))

/-- The second run would have to begin inside a pair, and the first one does not. -/
theorem runs_tied : ¬ ∃ fuel e,
    queryMacWildcard asciiStandard fuel (.ofParam (js "mac")) manyWildcards = some e
      ∧ TrueIff asciiStandard addressRow none e (DigitsMatch manyWildcards address.digits) := by
  have hparam := @Means.evaluate_param asciiStandard addressRow none (js "mac")
  rw [queryMacWildcard_right (m := address) asciiStandard_standard hparam (by decide)]
  rintro (hfew | ⟨-, hfit⟩)
  · exact absurd hfew (by decide)
  · obtain ⟨b, hb⟩ := hfit manyWildcards_match
    -- where two digits are among those of the address
    have hplace : ∀ (before after : JsString) (x y : Nat),
        address.digits.map lowerUnit = before ++ (x :: y :: after) →
          (js "ab1cd2334455")[before.length]? = some x
            ∧ (js "ab1cd2334455")[before.length + 1]? = some y := by
      intro before after x y h
      have hdigits : address.digits.map lowerUnit = js "ab1cd2334455" := by decide
      rw [hdigits] at h
      rw [h]
      simp
    have hlen : ∀ n x, (js "ab1cd2334455")[n]? = some x → n < 12 := fun n x h =>
      (List.getElem?_eq_some_iff.mp h).1
    have hfirst : ∀ n < 12, (js "ab1cd2334455")[n]? = some 'a'.toNat →
        (js "ab1cd2334455")[n + 1]? = some 'b'.toNat → n.bodd = false := by decide
    have hlast : ∀ n < 12, (js "ab1cd2334455")[n]? = some 'c'.toNat →
        (js "ab1cd2334455")[n + 1]? = some 'd'.toNat → n.bodd = true := by decide
    have hruns : (digitRuns manyWildcards)[0]? = some (js "ab")
        ∧ (digitRuns manyWildcards)[32]? = some (js "cd") := by decide
    obtain ⟨before, after, h, h0⟩ := hb.part hruns.1 (by decide)
    obtain ⟨before', after', h', h32⟩ := hb.part hruns.2 (by decide)
    obtain ⟨ha, hb'⟩ := hplace before after 'a'.toNat 'b'.toNat h
    obtain ⟨hc, hd⟩ := hplace before' after' 'c'.toNat 'd'.toNat h'
    rw [hfirst _ (hlen _ _ ha) ha hb'] at h0
    rw [hlast _ (hlen _ _ hc) hc hd] at h32
    exact absurd (h0.symm.trans h32) (by decide)

end MacSearch

end GenieAcs
