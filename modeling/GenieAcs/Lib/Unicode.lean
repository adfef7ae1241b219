import Mathlib.Data.List.Basic
import Mathlib.Tactic.Common

/-!
# Characters in units and in bytes

A character in UTF-16 code units and in UTF-8 bytes, and the upper-case hexadecimal
digits that a byte is written with. Units and bytes are natural numbers.
-/

namespace GenieAcs

namespace Unicode

/-! ## Bytes and units -/

def utf8 (c : Char) : List Nat := (String.utf8EncodeChar c).map UInt8.toNat

def utf16 (c : Char) : List Nat :=
  if c.toNat < 0x10000 then [c.toNat]
  else [0xD800 + (c.toNat - 0x10000) / 0x400, 0xDC00 + (c.toNat - 0x10000) % 0x400]

/-- The character of a code unit; a surrogate stands for no character, and is replaced. -/
def ofUnit (c : Nat) : Char := if h : c.isValidChar then Char.ofNatAux c h else '\uFFFD'

theorem utf8_lt {c : Char} {b : Nat} (hb : b ∈ utf8 c) : b < 256 := by
  obtain ⟨x, -, rfl⟩ := List.mem_map.mp hb
  exact x.toNat_lt

theorem utf8_ne_nil (c : Char) : utf8 c ≠ [] := by
  have hlen : (utf8 c).length = c.utf8Size := by
    rw [utf8, List.length_map, String.length_utf8EncodeChar]
  intro h
  rw [h] at hlen
  exact absurd hlen (Nat.ne_of_lt c.utf8Size_pos)

/-! ## Digits -/

/-- The upper-case hexadecimal digit of a number below 16. -/
def hexDigit (n : Nat) : Nat := if n < 10 then '0'.toNat + n else 'A'.toNat + (n - 10)

def IsHexDigit (c : Nat) : Prop :=
  ('0'.toNat ≤ c ∧ c ≤ '9'.toNat) ∨ ('A'.toNat ≤ c ∧ c ≤ 'F'.toNat)

instance (c : Nat) : Decidable (IsHexDigit c) := inferInstanceAs (Decidable (_ ∨ _))

def hexValue (c : Nat) : Nat := if c ≤ '9'.toNat then c - '0'.toNat else c - 'A'.toNat + 10

theorem hexDigit_spec {n : Nat} (hn : n < 16) :
    IsHexDigit (hexDigit n) ∧ hexValue (hexDigit n) = n := by
  unfold IsHexDigit hexValue hexDigit
  have h0 : '0'.toNat = 48 := rfl
  have h9 : '9'.toNat = 57 := rfl
  have hA : 'A'.toNat = 65 := rfl
  have hF : 'F'.toNat = 70 := rfl
  rw [h0, h9, hA, hF]
  split_ifs <;> omega

theorem hexDigit_hexValue {c : Nat} (h : IsHexDigit c) :
    hexDigit (hexValue c) = c ∧ hexValue c < 16 := by
  unfold IsHexDigit at h
  unfold hexDigit hexValue
  have h0 : '0'.toNat = 48 := rfl
  have h9 : '9'.toNat = 57 := rfl
  have hA : 'A'.toNat = 65 := rfl
  have hF : 'F'.toNat = 70 := rfl
  simp only [h0, h9, hA, hF] at h ⊢
  split_ifs <;> omega

end Unicode

end GenieAcs
