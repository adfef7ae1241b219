import GenieAcs.Lib.Unicode

/-!
# URI components

`encodeURIComponent` and `decodeURIComponent` on code units. A character that is not
left alone is written as its UTF-8 bytes, each behind a percent sign; decoding first
takes the percent signs apart and then puts bytes together to characters. `none` is
the error that either throws. Decoding undoes encoding one character at a time
(`decode_escape`, `decode_plain`), and it throws when a percent sign comes too early
behind another one (`decode_early`).
-/

namespace GenieAcs

namespace UriComponent

open Unicode

/-! ## Encoding -/

/-- Letters, digits and `-_.!~*'()`. -/
def unreserved (c : Nat) : Bool :=
  (97 ≤ c ∧ c ≤ 122) ∨ (65 ≤ c ∧ c ≤ 90) ∨ (48 ≤ c ∧ c ≤ 57)
    ∨ c ∈ [45, 95, 46, 33, 126, 42, 39, 40, 41]

def percentByte (b : Nat) : List Nat := ['%'.toNat, hexDigit (b / 16), hexDigit (b % 16)]

def escape (c : Char) : List Nat := (utf8 c).flatMap percentByte

def isHigh (c : Nat) : Bool := 0xD800 ≤ c ∧ c < 0xDC00

def isLow (c : Nat) : Bool := 0xDC00 ≤ c ∧ c < 0xE000

/-- The character of two surrogates. -/
def ofPair (c d : Nat) : Char := Char.ofNat (0x10000 + (c - 0xD800) * 0x400 + (d - 0xDC00))

def encodeURIComponent : List Nat → Option (List Nat)
  | [] => some []
  | [c] =>
      if unreserved c then some [c]
      else if isHigh c ∨ isLow c then none
      else some (escape (ofUnit c))
  | c :: d :: cs =>
      if unreserved c then (encodeURIComponent (d :: cs)).map (c :: ·)
      else if isLow c then none
      else if isHigh c then
        if isLow d then (encodeURIComponent cs).map (escape (ofPair c d) ++ ·) else none
      else (encodeURIComponent (d :: cs)).map (escape (ofUnit c) ++ ·)

/-! ## Decoding -/

/-- A unit that is left alone, or a byte behind a percent sign. -/
inductive Token where
  | unit (c : Nat)
  | octet (b : Nat)

def digitOf (c : Nat) : Option Nat :=
  if '0'.toNat ≤ c ∧ c ≤ '9'.toNat then some (c - '0'.toNat)
  else if 'A'.toNat ≤ c ∧ c ≤ 'F'.toNat then some (c - 'A'.toNat + 10)
  else if 'a'.toNat ≤ c ∧ c ≤ 'f'.toNat then some (c - 'a'.toNat + 10)
  else none

def tokens : List Nat → Option (List Token)
  | 37 :: h :: l :: cs =>
      match digitOf h, digitOf l with
      | some x, some y => (tokens cs).map (.octet (16 * x + y) :: ·)
      | _, _ => none
  | 37 :: _ => none
  | c :: cs => (tokens cs).map (.unit c :: ·)
  | [] => some []

/-- The character that bytes encode. -/
def decodeUtf8 (l : List Nat) : Option Char := (l.map UInt8.ofNat).toByteArray.utf8DecodeChar? 0

/-- How many octets a first one leads on to. -/
def following (a : Nat) : Option Nat :=
  if a < 0x80 then some 0
  else if 0xC0 ≤ a ∧ a < 0xE0 then some 1
  else if 0xE0 ≤ a ∧ a < 0xF0 then some 2
  else if 0xF0 ≤ a ∧ a < 0xF8 then some 3
  else none

/-- `octets` are those read of a character, and as many as the number are missing. -/
def assemble : Nat → List Nat → List Token → Option (List Nat)
  | 0, _, [] => some []
  | 0, _, .unit c :: ts => (assemble 0 [] ts).map (c :: ·)
  | 0, _, .octet a :: ts =>
      match following a with
      | some 0 => (assemble 0 [] ts).map (a :: ·)
      | some (n + 1) => assemble (n + 1) [a] ts
      | none => none
  | 1, octets, .octet b :: ts =>
      (decodeUtf8 (octets ++ [b])).bind fun c => (assemble 0 [] ts).map (utf16 c ++ ·)
  | n + 2, octets, .octet b :: ts => assemble (n + 1) (octets ++ [b]) ts
  | _ + 1, _, _ => none

def decodeURIComponent (s : List Nat) : Option (List Nat) := (tokens s).bind (assemble 0 [])

/-! ## Characters that are decoded -/

theorem decodeUtf8_utf8 (c : Char) : decodeUtf8 (utf8 c) = some c := by
  have hbytes : (utf8 c).map UInt8.ofNat = String.utf8EncodeChar c := by
    rw [utf8, List.map_map]
    conv_rhs => rw [← List.map_id (String.utf8EncodeChar c)]
    exact List.map_congr_left fun b _ => UInt8.ofNat_toNat
  rw [decodeUtf8, hbytes, ← ByteArray.append_empty (b := (String.utf8EncodeChar c).toByteArray),
    ByteArray.utf8DecodeChar?_utf8EncodeChar_append]

theorem utf8_ascii {c : Char} (hc : c.toNat < 0x80) : utf8 c = [c.toNat] := by
  have hval : c.val.toNat = c.toNat := rfl
  unfold utf8 String.utf8EncodeChar
  simp only [hval]
  rw [if_pos (by omega)]
  show [(UInt8.ofNat c.toNat).toNat] = _
  rw [UInt8.toNat_ofNat', Nat.mod_eq_of_lt (by omega)]

/-- The first byte tells how many there are. -/
theorem utf8_long {c : Char} (hc : ¬ c.toNat < 0x80) :
    ∃ a b bs, utf8 c = a :: b :: bs ∧ following a = some (bs.length + 1) := by
  have hval : c.val.toNat = c.toNat := rfl
  unfold utf8 String.utf8EncodeChar
  simp only [hval]
  rw [if_neg (by omega)]
  split_ifs with h2 h3
  · refine ⟨_, _, [], rfl, ?_⟩
    rw [UInt8.toNat_ofNat', Nat.mod_eq_of_lt (by omega), following,
      if_neg (by omega), if_pos (by omega)]
    rfl
  · refine ⟨_, _, [_], rfl, ?_⟩
    rw [UInt8.toNat_ofNat', Nat.mod_eq_of_lt (by omega), following,
      if_neg (by omega), if_neg (by omega), if_pos (by omega)]
    rfl
  · refine ⟨_, _, [_, _], rfl, ?_⟩
    rw [UInt8.toNat_ofNat', Nat.mod_eq_of_lt (by omega), following,
      if_neg (by omega), if_neg (by omega), if_neg (by omega), if_pos (by omega)]
    rfl

theorem assemble_octets {octets bs : List Nat} {b : Nat} {c : Char} {ts : List Token}
    (h : octets ++ b :: bs = utf8 c) :
    assemble (bs.length + 1) octets ((b :: bs).map Token.octet ++ ts)
      = (assemble 0 [] ts).map (utf16 c ++ ·) := by
  induction bs generalizing octets b with
  | nil =>
      show (decodeUtf8 (octets ++ [b])).bind _ = _
      rw [h, decodeUtf8_utf8]
      rfl
  | cons b' bs ih =>
      show assemble (bs.length + 1) (octets ++ [b]) ((b' :: bs).map Token.octet ++ ts) = _
      exact ih (by rw [List.append_assoc]; exact h)

theorem assemble_utf8 (c : Char) (ts : List Token) :
    assemble 0 [] ((utf8 c).map Token.octet ++ ts) = (assemble 0 [] ts).map (utf16 c ++ ·) := by
  by_cases hc : c.toNat < 0x80
  · rw [utf8_ascii hc, utf16, if_pos (by omega)]
    show (match following c.toNat with
      | some 0 => (assemble 0 [] ts).map (c.toNat :: ·)
      | some (n + 1) => assemble (n + 1) [c.toNat] ts
      | none => none) = _
    rw [following, if_pos hc]
    rfl
  · obtain ⟨a, b, bs, hbytes, hfollow⟩ := utf8_long hc
    rw [hbytes]
    show (match following a with
      | some 0 => (assemble 0 [] ((b :: bs).map Token.octet ++ ts)).map (a :: ·)
      | some (n + 1) => assemble (n + 1) [a] ((b :: bs).map Token.octet ++ ts)
      | none => none) = _
    rw [hfollow]
    exact assemble_octets hbytes.symm

theorem digitOf_hexDigit {n : Nat} (hn : n < 16) : digitOf (hexDigit n) = some n := by
  unfold digitOf hexDigit
  simp only [Char.reduceToNat]
  by_cases h : n < 10
  · rw [if_pos h, if_pos (by omega)]
    congr 1
    omega
  · rw [if_neg h, if_neg (by omega), if_pos (by omega)]
    congr 1
    omega

theorem tokens_percentByte {b : Nat} (hb : b < 256) (s : List Nat) :
    tokens (percentByte b ++ s) = (tokens s).map (Token.octet b :: ·) := by
  show (match digitOf (hexDigit (b / 16)), digitOf (hexDigit (b % 16)) with
    | some x, some y => (tokens s).map (Token.octet (16 * x + y) :: ·)
    | _, _ => none) = _
  rw [digitOf_hexDigit (by omega), digitOf_hexDigit (by omega)]
  simp only [Nat.div_add_mod]

theorem tokens_percentBytes {bs : List Nat} (hbs : ∀ b ∈ bs, b < 256) (s : List Nat) :
    tokens (bs.flatMap percentByte ++ s) = (tokens s).map (bs.map Token.octet ++ ·) := by
  induction bs with
  | nil => simp
  | cons b bs ih =>
      obtain ⟨hb, hbs⟩ := List.forall_mem_cons.mp hbs
      rw [List.flatMap_cons, List.append_assoc, tokens_percentByte hb, ih hbs, Option.map_map]
      rfl

theorem decode_escape (c : Char) (s : List Nat) :
    decodeURIComponent (escape c ++ s) = (decodeURIComponent s).map (utf16 c ++ ·) := by
  rw [decodeURIComponent, escape, tokens_percentBytes fun _ => utf8_lt, decodeURIComponent]
  cases tokens s with
  | none => rfl
  | some ts => exact assemble_utf8 c ts

theorem tokens_plain {c : Nat} (hc : c ≠ '%'.toNat) (s : List Nat) :
    tokens (c :: s) = (tokens s).map (.unit c :: ·) := by
  rw [tokens]
  · rintro h l cs rfl
    exact absurd rfl hc
  · rintro rfl
    exact absurd rfl hc

theorem decode_plain {c : Nat} (hc : c ≠ '%'.toNat) (s : List Nat) :
    decodeURIComponent (c :: s) = (decodeURIComponent s).map (c :: ·) := by
  rw [decodeURIComponent, tokens_plain hc, decodeURIComponent]
  cases tokens s with
  | none => rfl
  | some ts => rfl

/-- A percent sign that the digits behind another one run into. -/
theorem tokens_early (d : Nat) (t : List Nat) :
    ∀ s : List Nat, tokens (s ++ '%'.toNat :: d :: '%'.toNat :: t) = none
  | [] => by
      show (match digitOf d, digitOf '%'.toNat with
        | some x, some y => (tokens t).map (.octet (16 * x + y) :: ·)
        | _, _ => none) = none
      cases digitOf d <;> rfl
  | c :: s => by
      have ih := tokens_early d t s
      by_cases hc : c = '%'.toNat
      · subst hc
        match s with
        | [] => rfl
        | [h] =>
            show (match digitOf h, digitOf '%'.toNat with
              | some x, some y => (tokens (d :: '%'.toNat :: t)).map (.octet (16 * x + y) :: ·)
              | _, _ => none) = none
            cases digitOf h <;> rfl
        | h :: l :: s =>
            show (match digitOf h, digitOf l with
              | some x, some y => (tokens (s ++ '%'.toNat :: d :: '%'.toNat :: t)).map
                  (.octet (16 * x + y) :: ·)
              | _, _ => none) = none
            rw [tokens_early d t s]
            cases digitOf h <;> cases digitOf l <;> rfl
      · rw [List.cons_append, tokens_plain hc, ih]
        rfl

theorem decode_early (s : List Nat) (d : Nat) (t : List Nat) :
    decodeURIComponent (s ++ '%'.toNat :: d :: '%'.toNat :: t) = none := by
  rw [decodeURIComponent, tokens_early]
  rfl

/-! ## Characters that are encoded -/

theorem unreserved_iff {c : Nat} : unreserved c = true ↔ (97 ≤ c ∧ c ≤ 122) ∨ (65 ≤ c ∧ c ≤ 90)
    ∨ (48 ≤ c ∧ c ≤ 57) ∨ c = 45 ∨ c = 95 ∨ c = 46 ∨ c = 33 ∨ c = 126 ∨ c = 42 ∨ c = 39
    ∨ c = 40 ∨ c = 41 := by
  simp [unreserved]

def encoded (c : Char) : List Nat := if unreserved c.toNat then [c.toNat] else escape c

theorem ofUnit_toNat (c : Char) : ofUnit c.toNat = c := by
  have hvalid : c.toNat.isValidChar := c.valid
  rw [ofUnit, dif_pos hvalid]
  rfl

theorem surrogate_false {c : Char} : isHigh c.toNat = false ∧ isLow c.toNat = false := by
  have hvalid : c.toNat.isValidChar := c.valid
  unfold Nat.isValidChar at hvalid
  simp only [isHigh, isLow, decide_eq_false_iff_not]
  omega

theorem encode_single (c : Nat) : encodeURIComponent [c]
    = if unreserved c then some [c]
      else if isHigh c ∨ isLow c then none
      else some (escape (ofUnit c)) := rfl

theorem encode_cons (c d : Nat) (s : List Nat) : encodeURIComponent (c :: d :: s)
    = if unreserved c then (encodeURIComponent (d :: s)).map (c :: ·)
      else if isLow c then none
      else if isHigh c then
        if isLow d then (encodeURIComponent s).map (escape (ofPair c d) ++ ·) else none
      else (encodeURIComponent (d :: s)).map (escape (ofUnit c) ++ ·) := rfl

theorem encode_unit (c : Char) (s : List Nat) :
    encodeURIComponent (c.toNat :: s) = (encodeURIComponent s).map (encoded c ++ ·) := by
  obtain ⟨hhigh, hlow⟩ := surrogate_false (c := c)
  rw [encoded]
  cases s with
  | nil =>
      rw [encode_single, hhigh, hlow, ofUnit_toNat]
      by_cases h : unreserved c.toNat = true
      · rw [if_pos h, if_pos h]
        rfl
      · rw [if_neg h, if_neg h, if_neg (by simp)]
        simp [encodeURIComponent]
  | cons d s =>
      rw [encode_cons, hhigh, hlow, ofUnit_toNat]
      by_cases h : unreserved c.toNat = true
      · rw [if_pos h, if_pos h]
        rfl
      · rw [if_neg h, if_neg h, if_neg Bool.false_ne_true, if_neg Bool.false_ne_true]

theorem encode_pair (c : Char) (hc : ¬ c.toNat < 0x10000) (s : List Nat) :
    encodeURIComponent (utf16 c ++ s) = (encodeURIComponent s).map (escape c ++ ·) := by
  have hvalid : c.toNat.isValidChar := c.valid
  unfold Nat.isValidChar at hvalid
  have hdiv : (c.toNat - 0x10000) / 0x400 < 0x400 := by omega
  have hmod : (c.toNat - 0x10000) % 0x400 < 0x400 := Nat.mod_lt _ (by omega)
  have hpair : ofPair (0xD800 + (c.toNat - 0x10000) / 0x400) (0xDC00 + (c.toNat - 0x10000) % 0x400)
      = c := by
    rw [ofPair, Nat.add_sub_cancel_left, Nat.add_sub_cancel_left, Nat.add_assoc, Nat.mul_comm,
      Nat.div_add_mod, Nat.add_sub_cancel' (by omega), Char.ofNat_toNat]
  have hkept : ¬ unreserved (0xD800 + (c.toNat - 0x10000) / 0x400) = true := by
    rw [unreserved_iff]
    omega
  have hhigh : isHigh (0xD800 + (c.toNat - 0x10000) / 0x400) = true := by
    rw [isHigh, decide_eq_true_eq]
    omega
  have hlow : ¬ isLow (0xD800 + (c.toNat - 0x10000) / 0x400) = true := by
    rw [isLow, decide_eq_true_eq]
    omega
  have hlow' : isLow (0xDC00 + (c.toNat - 0x10000) % 0x400) = true := by
    rw [isLow, decide_eq_true_eq]
    omega
  rw [utf16, if_neg hc]
  refine (encode_cons _ _ s).trans ?_
  rw [hpair, if_neg hkept, if_neg hlow, if_pos hhigh, if_pos hlow']

theorem encode_utf16 (c : Char) (s : List Nat) :
    encodeURIComponent (utf16 c ++ s) = (encodeURIComponent s).map (encoded c ++ ·) := by
  by_cases hc : c.toNat < 0x10000
  · rw [utf16, if_pos hc]
    exact encode_unit c s
  · have hreserved : ¬ unreserved c.toNat = true := by
      rw [unreserved_iff]
      omega
    rw [encode_pair c hc, encoded, if_neg hreserved]

end UriComponent

end GenieAcs
