import GenieAcs.Normalize

/-!
# JSON texts of parameters

A polynomial knows its indeterminates by their JSON texts. `readUnits` reads
the body of a JSON string back, so two parameters with one text are the same.
`parseJsonString` is `JSON.parse` for strings, which accepts nothing else.
-/

namespace GenieAcs

/-! ## Reading the body of a string -/

def hexValue (c : Nat) : Nat := if c < 'a'.toNat then c - '0'.toNat else c - 'a'.toNat + 10

/-- What stands for the character after a backslash. -/
def unescape (c : Nat) : Nat :=
  if c = 'b'.toNat then 8
  else if c = 'f'.toNat then 12
  else if c = 'n'.toNat then 10
  else if c = 'r'.toNat then 13
  else if c = 't'.toNat then 9
  else c

def readUnits : JsString → JsString
  | 92 :: 117 :: h1 :: h2 :: h3 :: h4 :: cs =>
      (hexValue h1 * 4096 + hexValue h2 * 256 + hexValue h3 * 16 + hexValue h4) :: readUnits cs
  | 92 :: e :: cs => unescape e :: readUnits cs
  | c :: cs => c :: readUnits cs
  | [] => []

theorem hexValue_hexDigit {n : Nat} (hn : n < 16) : hexValue (hexDigit n) = n := by
  unfold hexValue hexDigit
  have h0 : '0'.toNat = 48 := rfl
  have ha : 'a'.toNat = 97 := rfl
  rw [h0, ha]
  split_ifs <;> omega

/-- Only the code units of the basic plane are escaped by number. -/
theorem readUnits_unicodeEscape {c : Nat} (hc : c < 65536) (rest : JsString) :
    readUnits (unicodeEscape c ++ rest) = c :: readUnits rest := by
  show (hexValue (hexDigit (c / 4096 % 16)) * 4096 + hexValue (hexDigit (c / 256 % 16)) * 256
    + hexValue (hexDigit (c / 16 % 16)) * 16 + hexValue (hexDigit (c % 16))) :: readUnits rest = _
  rw [hexValue_hexDigit (by omega), hexValue_hexDigit (by omega), hexValue_hexDigit (by omega),
    hexValue_hexDigit (by omega)]
  congr 1
  omega

theorem readUnits_plain {c : Nat} (hc : c ≠ '\\'.toNat) (rest : JsString) :
    readUnits (c :: rest) = c :: readUnits rest := by
  rw [readUnits]
  · rintro h1 h2 h3 h4 cs rfl
    exact absurd rfl hc
  · rintro e cs rfl
    exact absurd rfl hc

theorem readUnits_jsonUnit (c : Nat) (rest : JsString) :
    readUnits (jsonUnit c ++ rest) = c :: readUnits rest := by
  unfold jsonUnit
  split_ifs with h1 h2 h3 h4 h5 h6 h7 h8
  · subst h1; rfl
  · subst h2; rfl
  · subst h3; rfl
  · subst h4; rfl
  · subst h5; rfl
  · subst h6; rfl
  · subst h7; rfl
  · exact readUnits_unicodeEscape (by omega) rest
  · exact readUnits_plain h2 rest

theorem surrogate_lt {c : Nat} (h : isHighSurrogate c = true ∨ isLowSurrogate c = true) :
    c < 65536 := by
  unfold isHighSurrogate isLowSurrogate at h
  simp only [decide_eq_true_eq] at h
  omega

theorem surrogate_plain {c : Nat} (h : isHighSurrogate c = true ∨ isLowSurrogate c = true) :
    c ≠ '\\'.toNat := by
  rintro rfl
  revert h
  decide

theorem readUnits_jsonUnits (s : JsString) : readUnits (jsonUnits s) = s := by
  induction s using jsonUnits.induct with
  | case1 => rfl
  | case2 c h =>
      rw [jsonUnits, if_pos h]
      have hread := readUnits_unicodeEscape (surrogate_lt h) []
      rw [List.append_nil] at hread
      exact hread
  | case3 c h =>
      rw [jsonUnits, if_neg h]
      have hread := readUnits_jsonUnit c []
      rw [List.append_nil] at hread
      exact hread
  | case4 c d cs hhigh hlow ih =>
      rw [jsonUnits, if_pos hhigh, if_pos hlow, readUnits_plain (surrogate_plain (Or.inl hhigh)),
        readUnits_plain (surrogate_plain (Or.inr hlow)), ih]
  | case5 c d cs hhigh hlow ih =>
      rw [jsonUnits, if_pos hhigh, if_neg hlow,
        readUnits_unicodeEscape (surrogate_lt (Or.inl hhigh)), ih]
  | case6 c d cs hhigh hlow ih =>
      rw [jsonUnits, if_neg hhigh, if_pos hlow,
        readUnits_unicodeEscape (surrogate_lt (Or.inr hlow)), ih]
  | case7 c d cs hhigh hlow ih =>
      rw [jsonUnits, if_neg hhigh, if_neg hlow, readUnits_jsonUnit, ih]

theorem jsonString_inj {s t : JsString} (h : jsonString s = jsonString t) : s = t := by
  unfold jsonString at h
  have hunits := List.append_cancel_left (List.append_cancel_right h)
  rw [← readUnits_jsonUnits s, hunits, readUnits_jsonUnits]

theorem json_ofParam_inj {J : Js} {p q : JsString} (h : json J (.ofParam p) = json J (.ofParam q)) :
    p = q := by
  have hunits : jsonString p = jsonString q := by
    have hargs := List.append_cancel_left (List.append_cancel_right h)
    exact List.append_cancel_left (List.append_cancel_right hargs)
  exact jsonString_inj hunits

/-! ## Parsing a string -/

def hexOf (c : Nat) : Option Nat :=
  if '0'.toNat ≤ c ∧ c ≤ '9'.toNat then some (c - '0'.toNat)
  else if 'a'.toNat ≤ c ∧ c ≤ 'f'.toNat then some (c - 'a'.toNat + 10)
  else if 'A'.toNat ≤ c ∧ c ≤ 'F'.toNat then some (c - 'A'.toNat + 10)
  else none

/-- What stands for the character after a backslash, if it may stand there. -/
def escapeOf (c : Nat) : Option Nat :=
  if c = '"'.toNat ∨ c = '\\'.toNat ∨ c = '/'.toNat then some c
  else if c ∈ js "bfnrt" then some (unescape c)
  else none

/-- The value of a string behind its opening quote, and what is behind the
closing one. -/
def readString : JsString → Option (JsString × JsString)
  | 92 :: 117 :: h1 :: h2 :: h3 :: h4 :: cs =>
      match hexOf h1, hexOf h2, hexOf h3, hexOf h4 with
      | some d1, some d2, some d3, some d4 => (readString cs).map fun r =>
          ((d1 * 4096 + d2 * 256 + d3 * 16 + d4) :: r.1, r.2)
      | _, _, _, _ => none
  | 92 :: e :: cs => (escapeOf e).bind fun u => (readString cs).map fun r => (u :: r.1, r.2)
  | c :: cs =>
      if c = '"'.toNat then some ([], cs)
      else if c < 32 then none
      else (readString cs).map fun r => (c :: r.1, r.2)
  | [] => none

/-- The white space of JSON. -/
def jsonSpace (c : Nat) : Bool := c = 32 ∨ c = 9 ∨ c = 10 ∨ c = 13

/-- `JSON.parse` of a text that starts with a quote. -/
def parseJsonString (text : JsString) : Option JsString :=
  match readString text.tail with
  | some (v, rest) => if rest.all jsonSpace then some v else none
  | none => none

theorem hexOf_hexDigit {n : Nat} (hn : n < 16) : hexOf (hexDigit n) = some n := by
  unfold hexOf hexDigit
  have h0 : '0'.toNat = 48 := rfl
  have h9 : '9'.toNat = 57 := rfl
  have ha : 'a'.toNat = 97 := rfl
  have hf : 'f'.toNat = 102 := rfl
  rw [h0, h9, ha, hf]
  by_cases h : n < 10
  · rw [if_pos h, if_pos (by omega)]
    congr 1
    omega
  · rw [if_neg h, if_neg (by omega), if_pos (by omega)]
    congr 1
    omega

theorem readString_unicodeEscape {c : Nat} (hc : c < 65536) (rest : JsString) :
    readString (unicodeEscape c ++ rest) = (readString rest).map fun r => (c :: r.1, r.2) := by
  have hread : readString (unicodeEscape c ++ rest)
      = match hexOf (hexDigit (c / 4096 % 16)), hexOf (hexDigit (c / 256 % 16)),
          hexOf (hexDigit (c / 16 % 16)), hexOf (hexDigit (c % 16)) with
        | some d1, some d2, some d3, some d4 => (readString rest).map fun r =>
            ((d1 * 4096 + d2 * 256 + d3 * 16 + d4) :: r.1, r.2)
        | _, _, _, _ => none := rfl
  rw [hread, hexOf_hexDigit (by omega), hexOf_hexDigit (by omega), hexOf_hexDigit (by omega),
    hexOf_hexDigit (by omega)]
  have hsum : c / 4096 % 16 * 4096 + c / 256 % 16 * 256 + c / 16 % 16 * 16 + c % 16 = c := by
    omega
  simp only [hsum]

theorem readString_plain {c : Nat} (hquote : c ≠ '"'.toNat) (hslash : c ≠ '\\'.toNat)
    (hc : 32 ≤ c) (rest : JsString) :
    readString (c :: rest) = (readString rest).map fun r => (c :: r.1, r.2) := by
  rw [readString, if_neg hquote, if_neg (by omega)]
  · rintro h1 h2 h3 h4 cs rfl
    exact absurd rfl hslash
  · rintro e cs rfl
    exact absurd rfl hslash

theorem readString_jsonUnit (c : Nat) (rest : JsString) :
    readString (jsonUnit c ++ rest) = (readString rest).map fun r => (c :: r.1, r.2) := by
  unfold jsonUnit
  split_ifs with h1 h2 h3 h4 h5 h6 h7 h8
  · subst h1; rfl
  · subst h2; rfl
  · subst h3; rfl
  · subst h4; rfl
  · subst h5; rfl
  · subst h6; rfl
  · subst h7; rfl
  · exact readString_unicodeEscape (by omega) rest
  · exact readString_plain h1 h2 (by omega) rest

theorem readString_surrogate {c : Nat} (h : isHighSurrogate c = true ∨ isLowSurrogate c = true)
    (rest : JsString) : readString (c :: rest) = (readString rest).map fun r => (c :: r.1, r.2) := by
  refine readString_plain ?_ (surrogate_plain h) ?_ rest
  · rintro rfl
    revert h
    decide
  · unfold isHighSurrogate isLowSurrogate at h
    simp only [decide_eq_true_eq] at h
    omega

/-- The body of a JSON string is read back up to its closing quote. -/
theorem readString_jsonUnits (s rest : JsString) :
    readString (jsonUnits s ++ '"'.toNat :: rest) = some (s, rest) := by
  induction s using jsonUnits.induct with
  | case1 => rfl
  | case2 c h =>
      rw [jsonUnits, if_pos h, readString_unicodeEscape (surrogate_lt h)]
      rfl
  | case3 c h =>
      rw [jsonUnits, if_neg h, readString_jsonUnit]
      rfl
  | case4 c d cs hhigh hlow ih =>
      rw [jsonUnits, if_pos hhigh, if_pos hlow, List.cons_append, List.cons_append,
        readString_surrogate (Or.inl hhigh), readString_surrogate (Or.inr hlow), ih]
      rfl
  | case5 c d cs hhigh hlow ih =>
      rw [jsonUnits, if_pos hhigh, if_neg hlow, List.append_assoc,
        readString_unicodeEscape (surrogate_lt (Or.inl hhigh)), ih]
      rfl
  | case6 c d cs hhigh hlow ih =>
      rw [jsonUnits, if_neg hhigh, if_pos hlow, List.append_assoc,
        readString_unicodeEscape (surrogate_lt (Or.inr hlow)), ih]
      rfl
  | case7 c d cs hhigh hlow ih =>
      rw [jsonUnits, if_neg hhigh, if_neg hlow, List.append_assoc, readString_jsonUnit, ih]
      rfl

/-- A JSON string is parsed with nothing but white space behind it. -/
theorem parseJsonString_append (s rest : JsString) :
    parseJsonString (jsonString s ++ rest) = if rest.all jsonSpace then some s else none := by
  have htail : (jsonString s ++ rest).tail = jsonUnits s ++ '"'.toNat :: rest := by
    simp [jsonString, js]
  rw [parseJsonString, htail, readString_jsonUnits]

/-- A JSON string ends where it is read to. -/
theorem jsonString_append_inj {s t u v : JsString} (h : jsonString s ++ u = jsonString t ++ v) :
    s = t ∧ u = v := by
  have hs : ∀ s u : JsString, jsonString s ++ u = '"'.toNat :: (jsonUnits s ++ '"'.toNat :: u) :=
    fun s u => by simp [jsonString, js]
  rw [hs, hs] at h
  have hread := congrArg readString (List.cons.inj h).2
  rw [readString_jsonUnits, readString_jsonUnits] at hread
  exact Prod.mk.inj (Option.some.inj hread)

theorem parseJsonString_jsonString (s : JsString) : parseJsonString (jsonString s) = some s := by
  have happend := parseJsonString_append s []
  rw [List.append_nil] at happend
  exact happend

end GenieAcs
