import Mathlib.Data.Int.Log
import Mathlib.Data.Rat.Floor
import Mathlib.Order.WithBot
import GenieAcs.PathText

/-!
# Numbers of JavaScript

A number is NaN or a value of the extended rationals; reading one from a text
rounds it to a double. `parseInt` reads the integer that a text begins with,
and `ofText` is what a unary `+` makes of all of it.
-/

namespace GenieAcs

/-- A number as JavaScript has it; `none` is NaN. Both zeros are one. -/
abbrev JsNumber := Option (WithBot (WithTop ℚ))

namespace JsNumber

def ofRat (q : ℚ) : JsNumber := some ((q : WithTop ℚ) : WithBot (WithTop ℚ))

/-- The order of two numbers, if neither is NaN. -/
def gt : JsNumber → JsNumber → Bool
  | some x, some y => decide (y < x)
  | _, _ => false

/-! ## Doubles -/

/-- The distance of the doubles around a number. -/
def ulp (q : ℚ) : ℚ := 2 ^ max (Int.log 2 |q| - 52) (-1074)

/-- The nearest integer, the even one of two. -/
def roundEven (q : ℚ) : ℤ :=
  if q - ⌊q⌋ < 1 / 2 ∨ (q - ⌊q⌋ = 1 / 2 ∧ ⌊q⌋ % 2 = 0) then ⌊q⌋ else ⌊q⌋ + 1

/-- The double nearest to a number. -/
def double (q : ℚ) : JsNumber :=
  let r := if q = 0 then 0 else roundEven (q / ulp q) * ulp q
  if 2 ^ 1024 ≤ r then some ⊤ else if r ≤ -2 ^ 1024 then some ⊥ else ofRat r

/-! ## Reading numbers -/

def digitValue (c : Nat) : Nat :=
  if '0'.toNat ≤ c ∧ c ≤ '9'.toNat then c - '0'.toNat
  else if 'a'.toNat ≤ c ∧ c ≤ 'z'.toNat then c - 'a'.toNat + 10
  else if 'A'.toNat ≤ c ∧ c ≤ 'Z'.toNat then c - 'A'.toNat + 10
  else 36

def isDigit (radix c : Nat) : Bool := digitValue c < radix

def digitsValue (radix : Nat) (digits : JsString) : Nat :=
  digits.foldl (fun n c => n * radix + digitValue c) 0

/-- The sign in front of a number. -/
def sign : JsString → ℤ × JsString
  | c :: s => if c = '-'.toNat then (-1, s) else if c = '+'.toNat then (1, s) else (1, c :: s)
  | [] => (1, [])

/-- The radix that a text names in front of its digits. -/
def radixOf : JsString → Option (Nat × JsString)
  | first :: c :: s =>
      if first ≠ '0'.toNat then none
      else if c = 'x'.toNat ∨ c = 'X'.toNat then some (16, s)
      else if c = 'o'.toNat ∨ c = 'O'.toNat then some (8, s)
      else if c = 'b'.toNat ∨ c = 'B'.toNat then some (2, s)
      else none
  | _ => none

/-- `parseInt` knows hexadecimal numbers besides decimal ones. -/
def parseInt (text : JsString) : JsNumber :=
  let (sgn, s) := sign (text.dropWhile trimChar)
  let (radix, s) := match radixOf s with
    | some (16, s) => (16, s)
    | _ => (10, s)
  let digits := s.takeWhile (isDigit radix)
  if digits = [] then none else double (sgn * digitsValue radix digits)

/-- The exponent that ends a decimal number. -/
def exponent : JsString → Option ℤ
  | [] => some 0
  | c :: s =>
      if c ≠ 'e'.toNat ∧ c ≠ 'E'.toNat then none
      else
        let (sgn, digits) := sign s
        if digits = [] ∨ ¬ digits.all (isDigit 10) then none
        else some (sgn * digitsValue 10 digits)

/-- The digits behind the point of a decimal number, and what follows them. -/
def fraction : JsString → JsString × JsString
  | c :: s =>
      if c = '.'.toNat then (s.takeWhile (isDigit 10), s.dropWhile (isDigit 10)) else ([], c :: s)
  | [] => ([], [])

def decimal (s : JsString) : JsNumber :=
  let (sgn, s) := sign s
  if s = js "Infinity" then some (if sgn = 1 then ⊤ else ⊥)
  else
    let digits := s.takeWhile (isDigit 10)
    let (decimals, s) := fraction (s.dropWhile (isDigit 10))
    if digits = [] ∧ decimals = [] then none
    else match exponent s with
      | none => none
      | some e => double (sgn * digitsValue 10 (digits ++ decimals) * 10 ^ (e - decimals.length))

/-- The number that a text is. -/
def ofText (text : JsString) : JsNumber :=
  let s := trim text
  if s = [] then ofRat 0
  else match radixOf s with
    | some (radix, digits) =>
        if digits = [] ∨ ¬ digits.all (isDigit radix) then none
        else double (digitsValue radix digits)
    | none => decimal s

end JsNumber

end GenieAcs
