import GenieAcs.Doubles
import GenieAcs.Lib.Numeral
import GenieAcs.Lib.Unicode

/-!
# Entities

`decodeEntities` replaces what one regular expression finds. A numeric reference is
checked by printing the number that was read from it, and becomes one code unit; so a
character outside of the basic plane is lost (`decode_written_iff`), and what is no
reference may pass the check (`decode_match_iff`).
-/

namespace GenieAcs

namespace Xml

open JsNumber

/-! ## Numbers -/

/-- `parseInt(text, 16)`. -/
def parseHex (text : JsString) : JsNumber :=
  let (sgn, s) := sign (text.dropWhile trimChar)
  let s := match radixOf s with
    | some (16, s) => s
    | _ => s
  let digits := s.takeWhile (isDigit 16)
  if digits = [] then none else double (sgn * digitsValue 16 digits)

def hexUnit (d : Nat) : Nat := if d < 10 then '0'.toNat + d else 'a'.toNat + (d - 10)

def hexDigits (n : ℕ) : JsString := ((Nat.digits 16 n).map hexUnit).reverse

/-- `n.toString(16)` of a whole number, with all its digits. -/
def toHex : JsNumber → JsString
  | none => js "NaN"
  | some ⊤ => js "Infinity"
  | some ⊥ => js "-Infinity"
  | some (some (some q)) =>
      if q = 0 then js "0" else if q < 0 then js "-" ++ hexDigits (-⌊q⌋).toNat else hexDigits ⌊q⌋.toNat

/-- `String.fromCharCode`. -/
def fromCharCode : JsNumber → Nat
  | some (some (some q)) => ((if 0 ≤ q then ⌊q⌋ else ⌈q⌉) % 65536).toNat
  | _ => 0

/-- `toLowerCase` of a letter or digit. -/
def lowerUnit (c : Nat) : Nat := if 'A'.toNat ≤ c ∧ c ≤ 'Z'.toNat then c + 32 else c

/-! ## Decoding -/

/-- `[0-9a-z#]` in either case. -/
def wordUnit (c : Nat) : Bool :=
  ('0'.toNat ≤ c ∧ c ≤ '9'.toNat) ∨ ('a'.toNat ≤ c ∧ c ≤ 'z'.toNat) ∨
    ('A'.toNat ≤ c ∧ c ≤ 'Z'.toNat) ∨ c = '#'.toNat

/-- What stands between `&` and `;` if the regular expression matches at that `&`. -/
def wordAt (s : JsString) : Option JsString :=
  let word := s.takeWhile wordUnit
  if word ≠ [] ∧ (s.dropWhile wordUnit).head? = some ';'.toNat then some word else none

/-- What a match is replaced by; `none` if it is left as it is. -/
def decodeWord (word : JsString) : Option JsString :=
  if word = js "quot" then some (js "\"")
  else if word = js "amp" then some (js "&")
  else if word = js "apos" then some (js "'")
  else if word = js "lt" then some (js "<")
  else if word = js "gt" then some (js ">")
  else if (js "#x").isPrefixOf word then
    let str := (word.drop 2).map lowerUnit
    let n := parseHex str
    if (toHex n).isSuffixOf str then some [fromCharCode n] else none
  else if (js "#").isPrefixOf word then
    let str := word.drop 1
    let n := parseInt str
    if (toText n).isSuffixOf str then some [fromCharCode n] else none
  else none

/-- The replacement of all matches, after a number of units that belong to one. -/
def decodeFrom : Nat → JsString → JsString
  | _, [] => []
  | skip + 1, _ :: s => decodeFrom skip s
  | 0, c :: s =>
      if c = '&'.toNat then
        match wordAt s with
        | some word =>
            (decodeWord word).getD ('&'.toNat :: (word ++ [';'.toNat]))
              ++ decodeFrom (word.length + 1) s
        | none => c :: decodeFrom 0 s
      else c :: decodeFrom 0 s

def decodeEntities (string : JsString) : JsString := decodeFrom 0 string

def encodeUnit (c : Nat) : JsString :=
  if c = '&'.toNat then js "&amp;"
  else if c = '"'.toNat then js "&quot;"
  else if c = '\''.toNat then js "&apos;"
  else if c = '<'.toNat then js "&lt;"
  else if c = '>'.toNat then js "&gt;"
  else [c]

def encodeEntities (string : JsString) : JsString := string.flatMap encodeUnit

/-! ## Writing -/

inductive Named where
  | quot | amp | apos | lt | gt
  deriving DecidableEq

def Named.word : Named → JsString
  | .quot => js "quot"
  | .amp => js "amp"
  | .apos => js "apos"
  | .lt => js "lt"
  | .gt => js "gt"

def Named.char : Named → Char
  | .quot => '"'
  | .amp => '&'
  | .apos => '\''
  | .lt => '<'
  | .gt => '>'

/-- The digits of a number in a radix, with zeros in front and letters in either case. -/
structure Digits (radix n : Nat) where
  units : JsString
  ne : units ≠ []
  digit : ∀ c ∈ units, isDigit radix c = true
  value : digitsValue radix units = n

/-- A character as it is written. -/
inductive Written where
  | literal (c : Char) (h : c ≠ '&')
  | named (e : Named)
  | decimal (c : Char) (digits : Digits 10 c.toNat)
  | hexadecimal (c : Char) (digits : Digits 16 c.toNat)

def Written.char : Written → Char
  | .literal c _ => c
  | .named e => e.char
  | .decimal c _ => c
  | .hexadecimal c _ => c

def reference (word : JsString) : JsString := '&'.toNat :: (word ++ [';'.toNat])

def Written.text : Written → JsString
  | .literal c _ => Unicode.utf16 c
  | .named e => reference e.word
  | .decimal _ digits => reference ('#'.toNat :: digits.units)
  | .hexadecimal _ digits => reference ('#'.toNat :: 'x'.toNat :: digits.units)

/-- A numeric reference to a character outside of the basic plane. -/
def Written.Astral : Written → Prop
  | .decimal c _ => 0x10000 ≤ c.toNat
  | .hexadecimal c _ => 0x10000 ≤ c.toNat
  | _ => False

/-- The words of references. -/
inductive IsReference : JsString → Prop
  | named (e : Named) : IsReference e.word
  | decimal {digits : JsString} : digits ≠ [] → (∀ c ∈ digits, isDigit 10 c = true) →
      IsReference ('#'.toNat :: digits)
  | hexadecimal {digits : JsString} : digits ≠ [] → (∀ c ∈ digits, isDigit 16 c = true) →
      IsReference ('#'.toNat :: 'x'.toNat :: digits)

/-- What the regular expression finds in a string. -/
def Matches (string word : JsString) : Prop :=
  word ≠ [] ∧ (∀ c ∈ word, wordUnit c = true) ∧ reference word <:+: string

/-- `&#…;` where the number that is read from the text between, printed again, is what
that text ends with. -/
inductive Passes : JsString → Prop
  | hexadecimal {str : JsString} : toHex (parseHex (str.map lowerUnit)) <:+ str.map lowerUnit →
      Passes ('#'.toNat :: 'x'.toNat :: str)
  | decimal {str : JsString} : str.head? ≠ some 'x'.toNat → toText (parseInt str) <:+ str →
      Passes ('#'.toNat :: str)

/-! ## Digits -/

theorem digitsValue_eq (radix : Nat) (digits : JsString) :
    digitsValue radix digits = Numeral.value digitValue radix digits := by
  have hfold : ∀ (l : JsString) (n : ℕ), l.foldl (fun n c => n * radix + digitValue c) n
      = n * radix ^ l.length + Numeral.value digitValue radix l := by
    intro l
    induction l with
    | nil => exact fun n => by simp [Numeral.value]
    | cons c l ih =>
        intro n
        rw [List.foldl_cons, ih, Numeral.value, List.length_cons, pow_succ]
        ring
  rw [digitsValue, hfold, Nat.zero_mul, Nat.zero_add]

theorem ten_digit {c : Nat} (h : isDigit 10 c = true) :
    digitValue c < 10 ∧ '0'.toNat + digitValue c = c := by
  rw [isDigit_ten] at h
  simp only [digitValue, Char.reduceToNat]
  split_ifs
  all_goals omega

theorem sixteen_digit {c : Nat} (h : isDigit 16 c = true) :
    digitValue (lowerUnit c) = digitValue c ∧ digitValue c < 16 ∧
      hexUnit (digitValue (lowerUnit c)) = lowerUnit c := by
  rw [isDigit_sixteen] at h
  simp only [digitValue, hexUnit, lowerUnit, Char.reduceToNat]
  split_ifs <;> omega

/-- The only words with the value 0 are zeros. -/
theorem zero_suffix {digit : ℕ → ℕ} {b z : ℕ} {w : JsString} (hb : 0 < b) (hw : w ≠ [])
    (hz : ∀ a ∈ w, digit a = 0 → a = z) (h : Numeral.value digit b w = 0) : [z] <:+ w := by
  have hlast := (Numeral.value_eq_zero hb).mp h _ (List.getLast_mem hw)
  refine ⟨w.dropLast, ?_⟩
  rw [← hz _ (List.getLast_mem hw) hlast]
  exact List.dropLast_append_getLast hw

section

variable {units : JsString} (hne : units ≠ [])

include hne

/-- The printed number is what its digits end with. -/
theorem toText_suffix (hdigit : ∀ c ∈ units, isDigit 10 c = true)
    (hn : digitsValue 10 units < 10 ^ 15) :
    toText (ofRat (digitsValue 10 units)) <:+ units := by
  have hdigits : ∀ c ∈ units, digitValue c < 10 ∧ '0'.toNat + digitValue c = c :=
    fun c hc => ten_digit (hdigit c hc)
  have hvalue := digitsValue_eq 10 units
  rcases Nat.eq_zero_or_pos (digitsValue 10 units) with hzero | hpos
  · have htext : toText (ofRat (0 : ℕ)) = ['0'.toNat] := by
      rw [Nat.cast_zero]
      show numberText 0 = _
      exact if_pos rfl
    rw [hzero, htext]
    refine zero_suffix (by norm_num) hne (fun c hc h => ?_) (hvalue.symm.trans hzero)
    rw [← (hdigits c hc).2, h, Nat.add_zero]
  · rw [toText_nat hpos hn, decimalDigits, hvalue]
    exact Numeral.numeral_suffix (by norm_num) hdigits

omit hne in
theorem toHex_nat (n : ℕ) : toHex (ofRat n) = if n = 0 then js "0" else hexDigits n := by
  show (if (n : ℚ) = 0 then _ else if (n : ℚ) < 0 then _ else hexDigits ⌊(n : ℚ)⌋.toNat) = _
  rw [if_neg (not_lt.mpr (Nat.cast_nonneg n)), Int.floor_natCast, Int.toNat_natCast]
  simp only [Nat.cast_eq_zero]

theorem toHex_suffix (hdigit : ∀ c ∈ units, isDigit 16 c = true ∧ lowerUnit c = c) :
    toHex (ofRat (digitsValue 16 units)) <:+ units := by
  have hdigits : ∀ c ∈ units, digitValue c < 16 ∧ hexUnit (digitValue c) = c := by
    intro c hc
    obtain ⟨hsame, hlt, hunit⟩ := sixteen_digit (hdigit c hc).1
    rw [(hdigit c hc).2] at hunit
    exact ⟨hlt, hunit⟩
  have hvalue := digitsValue_eq 16 units
  rw [toHex_nat]
  split_ifs with hzero
  · refine zero_suffix (by norm_num) hne (fun c hc h => ?_) (hvalue.symm.trans hzero)
    rw [← (hdigits c hc).2, h]
    rfl
  · rw [hexDigits, hvalue]
    exact Numeral.numeral_suffix (by norm_num) hdigits

theorem parseHex_digits (hdigit : ∀ c ∈ units, isDigit 16 c = true) :
    parseHex units = double (digitsValue 16 units) := by
  have hall : units.takeWhile (isDigit 16) = units := List.takeWhile_eq_self_iff.mpr hdigit
  have hne16 := radixOf_ne hdigit
  rw [parseHex, dropWhile_sign hne hdigit]
  dsimp only
  split
  · exact absurd ‹_› (hne16 _)
  · rw [hall, if_neg hne, Int.cast_one, one_mul]

end

/-! ## References -/

theorem decodeWord_named (e : Named) : decodeWord e.word = some [e.char.toNat] := by
  cases e <;> rfl

theorem decodeWord_number (s : JsString) :
    decodeWord ('#'.toNat :: s)
      = if s.head? = some 'x'.toNat then
          if toHex (parseHex (s.tail.map lowerUnit)) <:+ s.tail.map lowerUnit
            then some [fromCharCode (parseHex (s.tail.map lowerUnit))] else none
        else if toText (parseInt s) <:+ s then some [fromCharCode (parseInt s)] else none := by
  have hne : ∀ w : JsString, w.head? ≠ some '#'.toNat → '#'.toNat :: s ≠ w := by
    rintro w hw rfl
    exact hw rfl
  have hhash : (js "#").isPrefixOf ('#'.toNat :: s) = true := by simp [js, List.isPrefixOf]
  have hx : (js "#x").isPrefixOf ('#'.toNat :: s) = true ↔ s.head? = some 'x'.toNat := by
    cases s with
    | nil => simp [js, List.isPrefixOf]
    | cons c s =>
        simp [js, List.isPrefixOf]
        exact eq_comm
  unfold decodeWord
  rw [if_neg (hne (js "quot") (by decide)), if_neg (hne (js "amp") (by decide)),
    if_neg (hne (js "apos") (by decide)), if_neg (hne (js "lt") (by decide)),
    if_neg (hne (js "gt") (by decide))]
  simp only [hhash, hx, List.isSuffixOf_iff_suffix, List.drop_succ_cons, List.drop_zero,
    List.drop_one, if_true]

theorem passes_number (s : JsString) :
    Passes ('#'.toNat :: s)
      ↔ if s.head? = some 'x'.toNat then
          toHex (parseHex (s.tail.map lowerUnit)) <:+ s.tail.map lowerUnit
        else toText (parseInt s) <:+ s := by
  constructor
  · rintro (h | ⟨hx, h⟩)
    · exact h
    · rw [if_neg hx]
      exact h
  · intro h
    split_ifs at h with hx
    · cases s with
      | nil => cases hx
      | cons c str =>
          rw [List.head?_cons, Option.some.injEq] at hx
          rw [hx]
          exact .hexadecimal h
    · exact .decimal hx h

/-- Any word is a name, or passes for a number, or is left. -/
theorem decodeWord_cases (word : JsString) :
    (∃ e : Named, word = e.word) ∨ (Passes word ∧ ∃ c, decodeWord word = some [c]) ∨
      (¬ Passes word ∧ decodeWord word = none) := by
  by_cases hhash : word.head? = some '#'.toNat
  · obtain ⟨s, rfl⟩ : ∃ s, word = '#'.toNat :: s := List.head?_eq_some_iff.mp hhash
    refine Or.inr ?_
    rw [decodeWord_number, passes_number]
    split_ifs with hx hprints hprints
    · exact Or.inl ⟨hprints, _, rfl⟩
    · exact Or.inr ⟨hprints, rfl⟩
    · exact Or.inl ⟨hprints, _, rfl⟩
    · exact Or.inr ⟨hprints, rfl⟩
  · by_cases hname : ∃ e : Named, word = e.word
    · exact Or.inl hname
    · have hne : ∀ e : Named, word ≠ e.word := fun e he => hname ⟨e, he⟩
      have hhex : ¬ (js "#x").isPrefixOf word = true := by
        rw [List.isPrefixOf_iff_prefix]
        rintro ⟨_, rfl⟩
        exact hhash rfl
      have hdec : ¬ (js "#").isPrefixOf word = true := by
        rw [List.isPrefixOf_iff_prefix]
        rintro ⟨_, rfl⟩
        exact hhash rfl
      refine Or.inr (Or.inr ⟨?_, ?_⟩)
      · rintro (_ | _)
        · exact hhash rfl
        · exact hhash rfl
      · unfold decodeWord
        have hquot : word ≠ js "quot" := hne .quot
        have hamp : word ≠ js "amp" := hne .amp
        have hapos : word ≠ js "apos" := hne .apos
        have hlt : word ≠ js "lt" := hne .lt
        have hgt : word ≠ js "gt" := hne .gt
        rw [if_neg hquot, if_neg hamp, if_neg hapos, if_neg hlt, if_neg hgt, if_neg hhex,
          if_neg hdec]

theorem fromCharCode_nat (n : ℕ) : fromCharCode (ofRat n) = n % 65536 := by
  show ((if 0 ≤ (n : ℚ) then ⌊(n : ℚ)⌋ else ⌈(n : ℚ)⌉) % 65536).toNat = _
  rw [if_pos (Nat.cast_nonneg n), Int.floor_natCast]
  omega

theorem char_lt (c : Char) : c.toNat < 0x110000 := by
  have hvalid : c.toNat < 0xD800 ∨ 0xDFFF < c.toNat ∧ c.toNat < 0x110000 := c.valid
  omega

variable {c : Char}

/-- A decimal reference becomes one code unit. -/
theorem decodeWord_decimal (d : Digits 10 c.toNat) :
    decodeWord ('#'.toNat :: d.units) = some [c.toNat % 65536] := by
  have hbound := char_lt c
  have hx : d.units.head? ≠ some 'x'.toNat := by
    intro hx
    have hdigit := digit_unit (ten_sixteen (d.digit _ (List.mem_of_mem_head? hx)))
    exact hdigit.2.2.2.1 rfl
  have hparse : parseInt d.units = ofRat c.toNat := by
    rw [parseInt_digits d.ne d.digit, d.value, double_nat (by omega)]
  have hsuffix := toText_suffix d.ne d.digit (by rw [d.value]; omega)
  rw [d.value] at hsuffix
  rw [decodeWord_number, if_neg hx, hparse, if_pos hsuffix, fromCharCode_nat]

theorem lower_digit {a : Nat} (h : isDigit 16 a = true) :
    isDigit 16 (lowerUnit a) = true ∧ lowerUnit (lowerUnit a) = lowerUnit a := by
  rw [isDigit_sixteen] at h
  rw [isDigit_sixteen]
  simp only [lowerUnit, Char.reduceToNat]
  split_ifs
  all_goals omega

theorem value_map {digit : ℕ → ℕ} {b : ℕ} {f : ℕ → ℕ} {w : List ℕ}
    (h : ∀ a ∈ w, digit (f a) = digit a) :
    Numeral.value digit b (w.map f) = Numeral.value digit b w := by
  induction w with
  | nil => rfl
  | cons a w ih =>
      obtain ⟨ha, hw⟩ := List.forall_mem_cons.mp h
      rw [List.map_cons, Numeral.value, Numeral.value, ha, ih hw, List.length_map]

/-- A hexadecimal reference becomes one code unit, in either case of its letters. -/
theorem decodeWord_hexadecimal (d : Digits 16 c.toNat) :
    decodeWord ('#'.toNat :: 'x'.toNat :: d.units) = some [c.toNat % 65536] := by
  have hbound := char_lt c
  set units := d.units.map lowerUnit with hunits
  have hne : units ≠ [] := List.map_eq_nil_iff.not.mpr d.ne
  have hdigit : ∀ a ∈ units, isDigit 16 a = true ∧ lowerUnit a = a := by
    intro a ha
    obtain ⟨unit, hunit, rfl⟩ := List.mem_map.mp ha
    exact lower_digit (d.digit unit hunit)
  have hvalue : digitsValue 16 units = c.toNat := by
    have hsame : ∀ a ∈ d.units, digitValue (lowerUnit a) = digitValue a :=
      fun a ha => (sixteen_digit (d.digit a ha)).1
    rw [hunits, digitsValue_eq, value_map hsame, ← digitsValue_eq, d.value]
  have hparse : parseHex units = ofRat c.toNat := by
    rw [parseHex_digits hne fun a ha => (hdigit a ha).1, hvalue, double_nat (by omega)]
  have hsuffix := toHex_suffix hne hdigit
  rw [hvalue] at hsuffix
  rw [decodeWord_number, List.head?_cons, if_pos rfl, List.tail_cons, ← hunits, hparse,
    if_pos hsuffix, fromCharCode_nat]

/-! ## Runs -/

section

variable {word rest s : JsString}

theorem wordAt_eq_some : wordAt s = some word ↔
    word ≠ [] ∧ (∀ c ∈ word, wordUnit c = true) ∧ ∃ rest, s = word ++ ';'.toNat :: rest := by
  rw [wordAt]
  constructor
  · intro h
    split_ifs at h with hword
    obtain ⟨hne, hsemi⟩ := hword
    obtain ⟨rest, hrest⟩ := List.head?_eq_some_iff.mp hsemi
    rw [← Option.some.inj h]
    refine ⟨hne, fun c => List.mem_takeWhile_imp, rest, ?_⟩
    rw [← hrest, List.takeWhile_append_dropWhile]
  · rintro ⟨hne, hunits, rest, rfl⟩
    have htake : (word ++ ';'.toNat :: rest).takeWhile wordUnit = word := by
      rw [List.takeWhile_append_of_pos hunits, List.takeWhile_cons_of_neg (by decide),
        List.append_nil]
    have hdrop : (word ++ ';'.toNat :: rest).dropWhile wordUnit = ';'.toNat :: rest := by
      rw [List.dropWhile_append_of_pos hunits, List.dropWhile_cons_of_neg (by decide)]
    rw [htake, hdrop, if_pos ⟨hne, rfl⟩]

theorem decodeFrom_append (u s : JsString) : decodeFrom u.length (u ++ s) = decodeFrom 0 s := by
  induction u with
  | nil => rfl
  | cons c u ih => exact ih

theorem decode_literal {c : Nat} (h : c = '&'.toNat → wordAt s = none) :
    decodeEntities (c :: s) = c :: decodeEntities s := by
  rw [decodeEntities, decodeFrom]
  split_ifs with hc
  · rw [h hc]
    rfl
  · rfl

theorem decode_reference (hne : word ≠ []) (hunits : ∀ c ∈ word, wordUnit c = true) :
    decodeEntities (reference word ++ rest)
      = (decodeWord word).getD (reference word) ++ decodeEntities rest := by
  have hlist : reference word ++ rest = '&'.toNat :: (word ++ ';'.toNat :: rest) := by
    simp [reference]
  have hat : wordAt (word ++ ';'.toNat :: rest) = some word :=
    wordAt_eq_some.mpr ⟨hne, hunits, rest, rfl⟩
  rw [hlist, decodeEntities, decodeFrom, if_pos rfl, hat]
  have hrun := decodeFrom_append (word ++ [';'.toNat]) rest
  rw [List.length_append, List.append_assoc] at hrun
  exact congrArg _ hrun

/-- A text is empty, or starts with a unit that is no part of a match, or with a match. -/
theorem text_cases (s : JsString) :
    s = [] ∨ (∃ c rest, s = c :: rest ∧ (c = '&'.toNat → wordAt rest = none)) ∨
      ∃ word rest, word ≠ [] ∧ (∀ c ∈ word, wordUnit c = true) ∧ s = reference word ++ rest := by
  cases s with
  | nil => exact Or.inl rfl
  | cons c s =>
      by_cases hc : c = '&'.toNat
      · cases hat : wordAt s with
        | none => exact Or.inr (Or.inl ⟨c, s, rfl, fun _ => hat⟩)
        | some word =>
            obtain ⟨hne, hunits, rest, rfl⟩ := wordAt_eq_some.mp hat
            exact Or.inr (Or.inr ⟨word, rest, hne, hunits, by simp [reference, hc]⟩)
      · exact Or.inr (Or.inl ⟨c, s, rfl, fun h => absurd h hc⟩)

end

/-! ## Encoded text -/

theorem named_unit (e : Named) : e.word ≠ [] ∧ ∀ c ∈ e.word, wordUnit c = true := by
  cases e <;> decide

theorem decode_named (e : Named) (s : JsString) :
    decodeEntities (reference e.word ++ s) = e.char.toNat :: decodeEntities s := by
  rw [decode_reference (named_unit e).1 (named_unit e).2, decodeWord_named]
  rfl

theorem encodeUnit_cases (c : Nat) :
    (∃ e : Named, c = e.char.toNat ∧ encodeUnit c = reference e.word) ∨
      (c ≠ '&'.toNat ∧ encodeUnit c = [c]) := by
  unfold encodeUnit
  split_ifs with hamp hquot hapos hlt hgt
  · exact Or.inl ⟨.amp, hamp, rfl⟩
  · exact Or.inl ⟨.quot, hquot, rfl⟩
  · exact Or.inl ⟨.apos, hapos, rfl⟩
  · exact Or.inl ⟨.lt, hlt, rfl⟩
  · exact Or.inl ⟨.gt, hgt, rfl⟩
  · exact Or.inr ⟨hamp, rfl⟩

theorem decode_encode (s : JsString) : decodeEntities (encodeEntities s) = s := by
  induction s with
  | nil => rfl
  | cons c s ih =>
      rw [encodeEntities, List.flatMap_cons]
      rw [encodeEntities] at ih
      obtain ⟨e, rfl, hunit⟩ | ⟨hc, hunit⟩ := encodeUnit_cases c
      · rw [hunit, decode_named, ih]
      · rw [hunit, List.singleton_append, decode_literal fun h => absurd h hc, ih]

/-! ## Written text -/

/-- What a written character is decoded to. -/
def Written.decoded : Written → JsString
  | .literal c _ => Unicode.utf16 c
  | .named e => [e.char.toNat]
  | .decimal c _ => [c.toNat % 65536]
  | .hexadecimal c _ => [c.toNat % 65536]

theorem digit_wordUnit {a : Nat} (h : isDigit 16 a = true) : wordUnit a = true := by
  rw [isDigit_sixteen] at h
  simp only [wordUnit, Char.reduceToNat, decide_eq_true_eq]
  omega

theorem utf16_ne_amp (h : c ≠ '&') : ∀ a ∈ Unicode.utf16 c, a ≠ '&'.toNat := by
  intro a ha
  rw [Unicode.utf16] at ha
  split_ifs at ha with hplane
  · rw [List.mem_singleton.mp ha]
    exact fun heq => h (Char.toNat_inj.mp heq)
  · simp only [List.mem_cons, List.not_mem_nil, or_false, Char.reduceToNat] at ha ⊢
    omega

theorem decode_units {u : JsString} (h : ∀ a ∈ u, a ≠ '&'.toNat) (s : JsString) :
    decodeEntities (u ++ s) = u ++ decodeEntities s := by
  induction u with
  | nil => rfl
  | cons a u ih =>
      obtain ⟨ha, hu⟩ := List.forall_mem_cons.mp h
      rw [List.cons_append, decode_literal fun heq => absurd heq ha, ih hu, List.cons_append]

theorem decode_text (w : Written) (s : JsString) :
    decodeEntities (w.text ++ s) = w.decoded ++ decodeEntities s := by
  cases w with
  | literal c h => exact decode_units (utf16_ne_amp h) s
  | named e => exact decode_named e s
  | decimal c d =>
      have hunits : ∀ a ∈ '#'.toNat :: d.units, wordUnit a = true :=
        List.forall_mem_cons.mpr ⟨rfl, fun a ha => digit_wordUnit (ten_sixteen (d.digit a ha))⟩
      rw [Written.text, decode_reference (List.cons_ne_nil _ _) hunits, decodeWord_decimal]
      rfl
  | hexadecimal c d =>
      have hunits : ∀ a ∈ '#'.toNat :: 'x'.toNat :: d.units, wordUnit a = true :=
        List.forall_mem_cons.mpr ⟨rfl, List.forall_mem_cons.mpr
          ⟨rfl, fun a ha => digit_wordUnit (d.digit a ha)⟩⟩
      rw [Written.text, decode_reference (List.cons_ne_nil _ _) hunits, decodeWord_hexadecimal]
      rfl

theorem decode_written (ws : List Written) :
    decodeEntities (ws.flatMap Written.text) = ws.flatMap Written.decoded := by
  induction ws with
  | nil => rfl
  | cons w ws ih => rw [List.flatMap_cons, decode_text, ih, List.flatMap_cons]

theorem named_plane (e : Named) : Unicode.utf16 e.char = [e.char.toNat] := by
  cases e <;> rfl

/-- Outside of the basic plane, one unit of two is left. -/
theorem decoded_cases (w : Written) :
    (¬ w.Astral ∧ w.decoded = Unicode.utf16 w.char) ∨
      (w.Astral ∧ w.decoded.length < (Unicode.utf16 w.char).length) := by
  have hnumeric : ∀ c : Char, (¬ 0x10000 ≤ c.toNat ∧ [c.toNat % 65536] = Unicode.utf16 c) ∨
      (0x10000 ≤ c.toNat ∧ 1 < (Unicode.utf16 c).length) := by
    intro c
    rw [Unicode.utf16]
    split_ifs with hplane
    · exact Or.inl ⟨by omega, by rw [Nat.mod_eq_of_lt hplane]⟩
    · exact Or.inr ⟨by omega, Nat.one_lt_two⟩
  cases w with
  | literal c h => exact Or.inl ⟨id, rfl⟩
  | named e => exact Or.inl ⟨id, (named_plane e).symm⟩
  | decimal c d => exact hnumeric c
  | hexadecimal c d => exact hnumeric c

theorem decoded_length (ws : List Written) :
    (ws.flatMap Written.decoded).length ≤ (ws.flatMap fun w => Unicode.utf16 w.char).length := by
  induction ws with
  | nil => exact Nat.le_refl _
  | cons w ws ih =>
      rw [List.flatMap_cons, List.flatMap_cons, List.length_append, List.length_append]
      obtain ⟨-, hsame⟩ | ⟨-, hlt⟩ := decoded_cases w
      · rw [hsame]
        omega
      · omega

theorem decode_written_iff (ws : List Written) :
    decodeEntities (ws.flatMap Written.text) = ws.flatMap (fun w => Unicode.utf16 w.char)
      ↔ ∀ w ∈ ws, ¬ w.Astral := by
  rw [decode_written]
  induction ws with
  | nil => exact iff_of_true rfl fun _ h => absurd h List.not_mem_nil
  | cons w ws ih =>
      rw [List.flatMap_cons, List.flatMap_cons, List.forall_mem_cons]
      obtain ⟨hplane, hsame⟩ | ⟨hastral, hlt⟩ := decoded_cases w
      · rw [hsame, List.append_cancel_left_eq, ih, and_iff_right hplane]
      · have hlen := decoded_length ws
        refine iff_of_false (fun h => ?_) (fun h => h.1 hastral)
        have heq := congrArg List.length h
        rw [List.length_append, List.length_append] at heq
        omega

/-! ## Plain text -/

theorem matches_cons {a : Nat} {s word : JsString} :
    Matches (a :: s) word
      ↔ (a = '&'.toNat ∧ wordAt s = some word) ∨ Matches s word := by
  have hinfix : reference word <:+: a :: s
      ↔ (a = '&'.toNat ∧ ∃ rest, s = word ++ ';'.toNat :: rest) ∨ reference word <:+: s := by
    rw [List.infix_cons_iff]
    refine or_congr_left ?_
    rw [reference, List.cons_prefix_cons, eq_comm]
    refine and_congr_right fun _ => ?_
    constructor
    · rintro ⟨rest, h⟩
      exact ⟨rest, by rw [← h, List.append_assoc]; rfl⟩
    · rintro ⟨rest, h⟩
      exact ⟨rest, by rw [h, List.append_assoc]; rfl⟩
  rw [Matches, Matches, hinfix, wordAt_eq_some]
  tauto

theorem matches_append {u s word : JsString} (hu : ∀ a ∈ u, a ≠ '&'.toNat) :
    Matches (u ++ s) word ↔ Matches s word := by
  induction u with
  | nil => exact Iff.rfl
  | cons a u ih =>
      obtain ⟨ha, hu⟩ := List.forall_mem_cons.mp hu
      rw [List.cons_append, matches_cons, ih hu]
      exact or_iff_right fun h => ha h.1

theorem matches_reference {word rest word' : JsString} (hne : word ≠ [])
    (hunits : ∀ c ∈ word, wordUnit c = true) :
    Matches (reference word ++ rest) word' ↔ word' = word ∨ Matches rest word' := by
  have hu : ∀ a ∈ word ++ [';'.toNat], a ≠ '&'.toNat := by
    intro a ha heq
    rcases List.mem_append.mp ha with ha | ha
    · rw [heq] at ha
      exact absurd (hunits _ ha) (by decide)
    · rw [heq] at ha
      exact absurd ha (by decide)
  have hat : wordAt (word ++ [';'.toNat] ++ rest) = some word :=
    wordAt_eq_some.mpr ⟨hne, hunits, rest, by rw [List.append_assoc]; rfl⟩
  rw [reference, List.cons_append, matches_cons, matches_append hu, hat, and_iff_right rfl,
    Option.some.injEq, eq_comm]

/-- Text without references is as long as before, or a match in it has passed for one. -/
theorem decode_plain (s : JsString) :
    (decodeEntities s).length ≤ s.length ∧
      ((∀ word, Matches s word → ¬ IsReference word) →
        (decodeEntities s = s ↔ ∀ word, Matches s word → ¬ Passes word)) := by
  induction hn : s.length using Nat.strong_induction_on generalizing s with
  | _ n ih =>
    subst hn
    obtain rfl | ⟨c, rest, rfl, hc⟩ | ⟨word, rest, hne, hunits, rfl⟩ := text_cases s
    · refine ⟨Nat.le_refl _, fun _ => iff_of_true rfl ?_⟩
      rintro word ⟨-, -, hinfix⟩
      exact absurd (List.eq_nil_of_infix_nil hinfix) (List.cons_ne_nil _ _)
    · obtain ⟨hlen, hiff⟩ := ih rest.length (Nat.lt_succ_self _) rest rfl
      have hmatch : ∀ word, Matches (c :: rest) word ↔ Matches rest word := by
        intro word
        rw [matches_cons]
        refine or_iff_right ?_
        rintro ⟨hamp, hat⟩
        rw [hc hamp] at hat
        cases hat
      rw [decode_literal hc]
      refine ⟨Nat.succ_le_succ hlen, fun hplain => ?_⟩
      simp only [hmatch] at hplain ⊢
      rw [List.cons.injEq, and_iff_right rfl, hiff hplain]
    · have hlong : (reference word ++ rest).length = word.length + 2 + rest.length := by
        simp [reference]
        omega
      obtain ⟨hlen, hiff⟩ := ih rest.length (by omega) rest rfl
      rw [decode_reference hne hunits]
      have hpos := List.length_pos_iff.mpr hne
      simp only [matches_reference hne hunits, or_imp, forall_and, forall_eq]
      obtain ⟨e, rfl⟩ | ⟨hpass, c, hword⟩ | ⟨hpass, hword⟩ := decodeWord_cases word
      · rw [decodeWord_named]
        refine ⟨?_, fun hplain => absurd (.named e) hplain.1⟩
        rw [hlong, Option.getD_some, List.length_append, List.length_singleton]
        omega
      · rw [hword, hlong, Option.getD_some]
        refine ⟨?_, fun _ => iff_of_false (fun heq => ?_) fun h => h.1 hpass⟩
        · rw [List.length_append, List.length_singleton]
          omega
        · have hlens := congrArg List.length heq
          rw [hlong, List.length_append, List.length_singleton] at hlens
          omega
      · rw [hword, Option.getD_none, List.length_append, List.append_cancel_left_eq,
          List.length_append]
        refine ⟨by omega, fun hplain => ?_⟩
        rw [hiff hplain.2, and_iff_right hpass]

theorem wordAt_append_amp {s : JsString} (h : wordAt s = none) (t : JsString) :
    wordAt (s ++ '&'.toNat :: t) = none := by
  by_contra hsome
  obtain ⟨word, hword⟩ := Option.ne_none_iff_exists'.mp hsome
  obtain ⟨hne, hunits, rest, heq⟩ := wordAt_eq_some.mp hword
  obtain ⟨u, rfl, hu⟩ | ⟨u, rfl, hu⟩ := List.append_eq_append_iff.mp heq
  · -- The ampersand would be a unit of the word, or the semicolon.
    cases u with
    | nil =>
        rw [List.nil_append] at hu
        exact absurd (List.cons.inj hu).1 (by decide)
    | cons a u =>
        rw [List.cons_append] at hu
        have hamp := hunits a (List.mem_append_right _ List.mem_cons_self)
        rw [← (List.cons.inj hu).1] at hamp
        exact absurd hamp (by decide)
  · cases u with
    | nil =>
        rw [List.nil_append] at hu
        exact absurd (List.cons.inj hu).1 (by decide)
    | cons a u =>
        rw [List.cons_append] at hu
        rw [← (List.cons.inj hu).1] at h
        have hat := wordAt_eq_some.mpr ⟨hne, hunits, u, rfl⟩
        rw [h] at hat
        cases hat

/-- No match goes over an ampersand. -/
theorem decode_append_amp (u t : JsString) :
    decodeEntities (u ++ '&'.toNat :: t) = decodeEntities u ++ decodeEntities ('&'.toNat :: t) := by
  induction hn : u.length using Nat.strong_induction_on generalizing u with
  | _ n ih =>
    subst hn
    obtain rfl | ⟨c, rest, rfl, hc⟩ | ⟨word, rest, hne, hunits, rfl⟩ := text_cases u
    · rfl
    · rw [List.cons_append, decode_literal fun heq => wordAt_append_amp (hc heq) t,
        decode_literal hc, ih rest.length (Nat.lt_succ_self _) rest rfl, List.cons_append]
    · have hlt : rest.length < (reference word ++ rest).length := by
        simp [reference]
        omega
      rw [List.append_assoc, decode_reference hne hunits, decode_reference hne hunits,
        ih rest.length hlt rest rfl, List.append_assoc]

theorem decode_match_iff {u word rest : JsString} (hne : word ≠ [])
    (hunits : ∀ c ∈ word, wordUnit c = true) (hplain : ¬ IsReference word) :
    decodeEntities (u ++ (reference word ++ rest))
        = decodeEntities u ++ (reference word ++ decodeEntities rest)
      ↔ ¬ Passes word := by
  have hrun : decodeEntities (u ++ (reference word ++ rest))
      = decodeEntities u ++ decodeEntities (reference word ++ rest) := decode_append_amp _ _
  rw [hrun, List.append_cancel_left_eq, decode_reference hne hunits, List.append_cancel_right_eq]
  obtain ⟨e, rfl⟩ | ⟨hpass, c, hword⟩ | ⟨hpass, hword⟩ := decodeWord_cases word
  · exact absurd (.named e) hplain
  · refine iff_of_false (fun heq => ?_) fun h => h hpass
    rw [hword, Option.getD_some, reference] at heq
    exact absurd (List.cons.inj heq).2.symm (by simp)
  · rw [hword]
    exact iff_of_true rfl hpass

/-- Decoding undoes what is written with no numeric reference outside of the basic plane, and
what `encodeEntities` writes; what is no reference stays unless it passes for a number. -/
theorem decodeEntities_iff (ws : List Written) (s : JsString) :
    (decodeEntities (ws.flatMap Written.text) = ws.flatMap (fun w => Unicode.utf16 w.char)
      ↔ ∀ w ∈ ws, ¬ w.Astral) ∧
    decodeEntities (encodeEntities s) = s ∧
    ((∀ word, Matches s word → ¬ IsReference word) →
      (decodeEntities s = s ↔ ∀ word, Matches s word → ¬ Passes word)) ∧
    ∀ word rest, word ≠ [] → (∀ c ∈ word, wordUnit c = true) → ¬ IsReference word →
      (decodeEntities (s ++ (reference word ++ rest))
          = decodeEntities s ++ (reference word ++ decodeEntities rest)
        ↔ ¬ Passes word) :=
  ⟨decode_written_iff ws, decode_encode s, (decode_plain s).2, fun _ _ => decode_match_iff⟩

theorem decodeEntities_nbsp :
    decodeEntities (js "a &amp; b" ++ (reference (js "nbsp") ++ js "&#65;"))
      = decodeEntities (js "a &amp; b") ++ (reference (js "nbsp") ++ decodeEntities (js "&#65;")) := by
  refine ((decodeEntities_iff [] _).2.2.2 _ _ (by decide) (by decide) ?_).mpr ?_
  · intro h
    generalize hword : js "nbsp" = word at h
    cases h with
    | named e => cases e <;> exact absurd hword (by decide)
    | decimal => exact absurd (List.cons.inj hword).1 (by decide)
    | hexadecimal => exact absurd (List.cons.inj hword).1 (by decide)
  · intro h
    generalize hword : js "nbsp" = word at h
    cases h with
    | hexadecimal => exact absurd (List.cons.inj hword).1 (by decide)
    | decimal => exact absurd (List.cons.inj hword).1 (by decide)

/-- U+20BB7 becomes U+0BB7, and `&#1a1;` becomes U+0001. -/
theorem reference_lost :
    decodeEntities (js "&#134071;") = [0x0BB7] ∧
      Unicode.utf16 (Char.ofNat 134071) = [0xD842, 0xDFB7] ∧
      decodeEntities (js "&#1a1;") = [1] := by
  refine ⟨?_, by decide, ?_⟩
  · let d : Digits 10 (Char.ofNat 134071).toNat := ⟨js "134071", by decide, by decide, by decide⟩
    have h := decode_text (.decimal (Char.ofNat 134071) d) []
    exact h
  · have hparse : parseInt (js "1a1") = ofRat (1 : ℕ) := by
      rw [← double_nat (by norm_num)]
      show double (((1 : ℤ) : ℚ) * ((1 : ℕ) : ℚ)) = _
      rw [Int.cast_one, one_mul]
    have htext : toText (ofRat (1 : ℕ)) = js "1" := by
      rw [toText_nat Nat.one_pos (by norm_num)]
      decide
    have hword : decodeWord (js "#1a1") = some [1] := by
      have hnumber := decodeWord_number (js "1a1")
      rw [if_neg (by decide), hparse, htext, if_pos (by decide), fromCharCode_nat] at hnumber
      exact hnumber
    have h : decodeEntities (reference (js "#1a1") ++ []) = _ :=
      decode_reference (by decide) (by decide)
    rw [hword] at h
    exact h

end Xml

end GenieAcs
