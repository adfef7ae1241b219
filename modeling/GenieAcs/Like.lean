import Mathlib.Data.List.Basic
import Mathlib.Tactic.Common

/-!
# LIKE patterns

`parseLikePattern` cuts a pattern into tokens: single code units, and the
two wildcards, written `\%` and `\_`. `likePatternToRegExp` prints the
regular expression that matches the pattern; `likeImplies` and
`likeDisjoint` compare two token lists without looking at any subject.

Strings are lists of UTF-16 code units.
-/

namespace GenieAcs

/-- A string, as its UTF-16 code units. -/
abbrev JsString := List Nat

instance JsString.instLawfulBEq : LawfulBEq JsString := inferInstanceAs (LawfulBEq (List Nat))

/-- The code units of an ASCII text. -/
def js (s : String) : JsString := s.toList.map Char.toNat

/-- What the modelled code can throw. `stackOverflow` is a recursion deeper
than the stack allows. -/
inductive JsError where
  | typeError
  | rangeError
  | syntaxError
  | invalidLiteral
  | stackOverflow
  deriving DecidableEq, Repr

namespace Like

/-- The `%` wildcard as a token. -/
def anyRun : JsString := js "\\%"

/-- The `_` wildcard as a token. -/
def anyOne : JsString := js "\\_"

/-- The loop of `parseLikePattern`; `run` while it skips the `%` that follow a `%`. -/
def tokens (esc : Option JsString) : Bool → JsString → List JsString
  | _, [] => []
  | run, c :: cs =>
      if run = true ∧ c = '%'.toNat then tokens esc true cs
      else if some [c] = esc then
        match cs with
        | [] => []
        | d :: cs => [d] :: tokens esc false cs
      else if c = '_'.toNat then anyOne :: tokens esc false cs
      else if c = '%'.toNat then anyRun :: tokens esc true cs
      else [c] :: tokens esc false cs

def parseLikePattern (pat : JsString) (esc : Option JsString) : List JsString :=
  tokens esc false pat

/-- The table `convChars` of `likePatternToRegExp`. -/
def convChars (c : JsString) : JsString :=
  if c = js "\\" then js "\\/"
  else if c = anyRun then js ".*"
  else if c = anyOne then js "."
  else if c ∈ ["-", "/", "^", "$", "*", "+", "?", ".", "(", ")", "|", "[", "]", "\x7b", "\x7d"].map js
    then js "\\" ++ c
  else c

/-- The source of the regular expression of a pattern. -/
def likePatternToRegExp (pat : JsString) (esc : Option JsString) : JsString :=
  match (parseLikePattern pat esc).map convChars with
  | [] => js "^$"
  | c :: cs =>
      let first := if c = js ".*" then [] else js "^" ++ c
      let chars := first :: cs
      let last := chars.getLast (by simp [chars])
      let last := if last = js ".*" ∨ last = [] then [] else last ++ js "$"
      (chars.dropLast ++ [last]).flatten

/-- The loop of `likeImplies` from `i1` and `i2`, for at most `fuel` rounds.
The inner `while` skips the `%` tokens of `pat1`. -/
def likeImpliesLoop (pat1 pat2 : List JsString) :
    Nat → Option (Nat × Nat) → Nat → Nat → Option Bool
  | 0, _, _, _ => none
  | fuel + 1, backtrack, i1, i2 =>
      let skipped := ((pat1.drop i1).takeWhile (· = anyRun)).length
      let backtrack := if skipped = 0 then backtrack else some (i1 + skipped - 1, i2)
      let i1 := i1 + skipped
      match pat2[i2]? with
      | none => some (decide (pat1.length ≤ i1))
      | some c2 =>
          if pat1[i1]? = some c2 ∨ pat1[i1]? = some anyOne then
            likeImpliesLoop pat1 pat2 fuel backtrack (i1 + 1) (i2 + 1)
          else
            match backtrack with
            | none => some false
            | some (b1, b2) =>
                likeImpliesLoop pat1 pat2 fuel (some (b1, b2 + 1)) (b1 + 1) (b2 + 1)

/-- Rounds enough for every run: between two backtracks `i1` grows, and each
backtrack starts further right in `pat2`. -/
def likeImpliesFuel (pat1 pat2 : List JsString) : Nat :=
  (pat1.length + 2) * (pat2.length + 2)

def likeImplies (pat1 pat2 : List JsString) : Bool :=
  (likeImpliesLoop pat1 pat2 (likeImpliesFuel pat1 pat2) none 0 0).getD false

/-- Two token prefixes differ at a place where neither has a wildcard. -/
def clash (xs ys : List JsString) : Bool :=
  (xs.zip ys).any fun (x, y) => decide (x ≠ y ∧ x ≠ anyOne ∧ y ≠ anyOne)

def likeDisjoint (pat1 pat2 : List JsString) : Bool :=
  let left1 := pat1.takeWhile (· ≠ anyRun)
  let left2 := pat2.takeWhile (· ≠ anyRun)
  let right1 := pat1.reverse.takeWhile (· ≠ anyRun)
  let right2 := pat2.reverse.takeWhile (· ≠ anyRun)
  if clash left1 left2 then true
  else if clash right1 right2 then true
  else if pat1.length = left1.length then
    decide (pat1.length < (pat2.filter (· ≠ anyRun)).length)
  else if pat2.length = left2.length then
    decide (pat2.length < (pat1.filter (· ≠ anyRun)).length)
  else false

end Like

end GenieAcs
