import GenieAcs.Lib.Unicode

/-!
# Decoding UTF-8

Bytes to code units, as a decoder does that never fails: what cannot be continued, and
what is cut off at the end, is replaced. Bytes of whole characters give their units
(`decode_chars`); of a character that is cut in the middle remains one replacement
(`decode_cut`).
-/

namespace GenieAcs

namespace Unicode

/-! ## The decoder -/

/-- Bytes that are missing, the range of the next one, and the bits so far. -/
structure Partial where
  needed : Nat
  lower : Nat
  upper : Nat
  point : Nat

def idle : Partial := ⟨0, 0x80, 0xBF, 0⟩

def replacement : Nat := 0xFFFD

def unitsOf (point : Nat) : List Nat :=
  if point < 0x10000 then [point]
  else [0xD800 + (point - 0x10000) / 0x400, 0xDC00 + (point - 0x10000) % 0x400]

/-- A byte between characters. -/
def leadByte (b : Nat) : Partial × List Nat :=
  if b < 0x80 then (idle, [b])
  else if 0xC2 ≤ b ∧ b ≤ 0xDF then (⟨1, 0x80, 0xBF, b - 0xC0⟩, [])
  else if 0xE0 ≤ b ∧ b ≤ 0xEF then
    (⟨2, if b = 0xE0 then 0xA0 else 0x80, if b = 0xED then 0x9F else 0xBF, b - 0xE0⟩, [])
  else if 0xF0 ≤ b ∧ b ≤ 0xF4 then
    (⟨3, if b = 0xF0 then 0x90 else 0x80, if b = 0xF4 then 0x8F else 0xBF, b - 0xF0⟩, [])
  else (idle, [replacement])

/-- A byte that does not continue a character is read once more, between characters. -/
def decodeByte (s : Partial) (b : Nat) : Partial × List Nat :=
  if s.needed = 0 then leadByte b
  else if s.lower ≤ b ∧ b ≤ s.upper then
    let point := s.point * 64 + (b - 0x80)
    if s.needed = 1 then (idle, unitsOf point) else (⟨s.needed - 1, 0x80, 0xBF, point⟩, [])
  else ((leadByte b).1, replacement :: (leadByte b).2)

def decodeFrom : Partial → List Nat → List Nat
  | s, [] => if s.needed = 0 then [] else [replacement]
  | s, b :: bs => (decodeByte s b).2 ++ decodeFrom (decodeByte s b).1 bs

def decode (bytes : List Nat) : List Nat := decodeFrom idle bytes

/-! ## Characters -/

variable {c : Char} {bytes cut : List Nat}

/-- The bytes of a character: a lead byte and those that continue it. -/
inductive Encoded : Nat → List Nat → Prop
  | one {p} : p < 0x80 → Encoded p [p]
  | two {p} : 0x80 ≤ p → p < 0x800 → Encoded p [p / 64 % 0x20 + 0xC0, p % 0x40 + 0x80]
  | three {p} : 0x800 ≤ p → p < 0x10000 → ¬ (0xD800 ≤ p ∧ p < 0xE000) →
      Encoded p [p / 4096 % 0x10 + 0xE0, p / 64 % 0x40 + 0x80, p % 0x40 + 0x80]
  | four {p} : 0x10000 ≤ p → p < 0x110000 → Encoded p [p / 262144 % 0x08 + 0xF0,
      p / 4096 % 0x40 + 0x80, p / 64 % 0x40 + 0x80, p % 0x40 + 0x80]

theorem encoded_utf8 (c : Char) : Encoded c.toNat (utf8 c) := by
  have hvalid : c.toNat < 0xD800 ∨ (0xDFFF < c.toNat ∧ c.toNat < 0x110000) := c.valid
  have hval : c.val.toNat = c.toNat := rfl
  have hbyte : ∀ n, n < 256 → (UInt8.ofNat n).toNat = n := fun n hn => by
    rw [UInt8.toNat_ofNat']
    exact Nat.mod_eq_of_lt hn
  unfold utf8 String.utf8EncodeChar
  simp only [hval]
  split_ifs with h1 h2 h3
  · rw [List.map_singleton, hbyte _ (by omega)]
    exact .one (by omega)
  · rw [List.map_cons, List.map_singleton, hbyte _ (by omega), hbyte _ (by omega)]
    exact .two (by omega) (by omega)
  · rw [List.map_cons, List.map_cons, List.map_singleton, hbyte _ (by omega), hbyte _ (by omega),
      hbyte _ (by omega)]
    exact .three (by omega) (by omega) (by omega)
  · rw [List.map_cons, List.map_cons, List.map_cons, List.map_singleton, hbyte _ (by omega),
      hbyte _ (by omega), hbyte _ (by omega), hbyte _ (by omega)]
    exact .four (by omega) (by omega)

/-! ## Bytes that continue -/

section Steps

variable {n l u p b : Nat} {bs : List Nat}

theorem decodeByte_last (hl : l ≤ b) (hu : b ≤ u) :
    decodeByte ⟨1, l, u, p⟩ b = (idle, unitsOf (p * 64 + (b - 0x80))) := by
  rw [decodeByte, if_neg (by simp), if_pos ⟨hl, hu⟩]
  rfl

theorem decodeByte_next (hl : l ≤ b) (hu : b ≤ u) :
    decodeByte ⟨n + 2, l, u, p⟩ b = (⟨n + 1, 0x80, 0xBF, p * 64 + (b - 0x80)⟩, []) := by
  rw [decodeByte, if_neg (by simp), if_pos ⟨hl, hu⟩]
  rfl

theorem decodeFrom_last (hl : l ≤ b) (hu : b ≤ u) :
    decodeFrom ⟨1, l, u, p⟩ (b :: bs) = unitsOf (p * 64 + (b - 0x80)) ++ decodeFrom idle bs := by
  rw [decodeFrom, decodeByte_last hl hu]

theorem decodeFrom_next (hl : l ≤ b) (hu : b ≤ u) : decodeFrom ⟨n + 2, l, u, p⟩ (b :: bs)
    = decodeFrom ⟨n + 1, 0x80, 0xBF, p * 64 + (b - 0x80)⟩ bs := by
  rw [decodeFrom, decodeByte_next hl hu, List.nil_append]

theorem decodeFrom_lead {s : Partial} {out : List Nat} (h : leadByte b = (s, out)) :
    decodeFrom idle (b :: bs) = out ++ decodeFrom s bs := by
  have hidle : decodeByte idle b = leadByte b := rfl
  rw [decodeFrom, hidle, h]

theorem leadByte_one (hb : b < 0x80) : leadByte b = (idle, [b]) := by
  rw [leadByte, if_pos hb]

theorem leadByte_two (hl : 0xC2 ≤ b) (hu : b ≤ 0xDF) :
    leadByte b = (⟨1, 0x80, 0xBF, b - 0xC0⟩, []) := by
  rw [leadByte, if_neg (by omega), if_pos ⟨hl, hu⟩]

theorem leadByte_three (hl : 0xE0 ≤ b) (hu : b ≤ 0xEF) : leadByte b =
    (⟨2, if b = 0xE0 then 0xA0 else 0x80, if b = 0xED then 0x9F else 0xBF, b - 0xE0⟩, []) := by
  rw [leadByte, if_neg (by omega), if_neg (by omega), if_pos ⟨hl, hu⟩]

theorem leadByte_four (hl : 0xF0 ≤ b) (hu : b ≤ 0xF4) : leadByte b =
    (⟨3, if b = 0xF0 then 0x90 else 0x80, if b = 0xF4 then 0x8F else 0xBF, b - 0xF0⟩, []) := by
  rw [leadByte, if_neg (by omega), if_neg (by omega), if_neg (by omega), if_pos ⟨hl, hu⟩]

end Steps

theorem Encoded.decode {p : Nat} (h : Encoded p bytes) (rest : List Nat) :
    decodeFrom idle (bytes ++ rest) = unitsOf p ++ decodeFrom idle rest := by
  cases h with
  | one hp =>
      rw [List.singleton_append, decodeFrom_lead (leadByte_one hp), unitsOf, if_pos (by omega)]
  | two hl hu =>
      rw [List.cons_append, List.singleton_append,
        decodeFrom_lead (leadByte_two (by omega) (by omega)), List.nil_append,
        decodeFrom_last (by omega) (by omega)]
      refine congrArg (unitsOf · ++ decodeFrom idle rest) ?_
      omega
  | three hl hu hs =>
      rw [List.cons_append, List.cons_append, List.singleton_append,
        decodeFrom_lead (leadByte_three (by omega) (by omega)), List.nil_append,
        decodeFrom_next (by split_ifs <;> omega) (by split_ifs <;> omega),
        decodeFrom_last (by omega) (by omega)]
      refine congrArg (unitsOf · ++ decodeFrom idle rest) ?_
      omega
  | four hl hu =>
      rw [List.cons_append, List.cons_append, List.cons_append, List.singleton_append,
        decodeFrom_lead (leadByte_four (by omega) (by omega)), List.nil_append,
        decodeFrom_next (by split_ifs <;> omega) (by split_ifs <;> omega),
        decodeFrom_next (by omega) (by omega), decodeFrom_last (by omega) (by omega)]
      refine congrArg (unitsOf · ++ decodeFrom idle rest) ?_
      omega

theorem cut_cons {x : Nat} {xs : List Nat} (h : cut ++ bytes = x :: xs) (hcut : cut ≠ []) :
    ∃ cut', cut = x :: cut' ∧ cut' ++ bytes = xs := by
  obtain ⟨y, cut', rfl⟩ := List.exists_cons_of_ne_nil hcut
  obtain ⟨rfl, hxs⟩ := List.cons.inj h
  exact ⟨cut', rfl, hxs⟩

/-- A character that is cut in the middle. -/
theorem Encoded.decode_cut {p : Nat} (h : Encoded p (cut ++ bytes)) (hcut : cut ≠ [])
    (hbytes : bytes ≠ []) : decodeFrom idle cut = [replacement] := by
  generalize heq : cut ++ bytes = all at h
  -- as many bytes are there as are missing at least
  have hdone : ∀ {rest : List Nat}, rest ++ bytes = [] → False := fun hrest =>
    hbytes (List.append_eq_nil_iff.mp hrest).2
  cases h with
  | one hp =>
      obtain ⟨cut₁, rfl, h₁⟩ := cut_cons heq hcut
      exact (hdone h₁).elim
  | two hl hu =>
      obtain ⟨cut₁, rfl, h₁⟩ := cut_cons heq hcut
      rw [decodeFrom_lead (leadByte_two (by omega) (by omega))]
      by_cases hcut₁ : cut₁ = []
      · rw [hcut₁]
        rfl
      · obtain ⟨cut₂, rfl, h₂⟩ := cut_cons h₁ hcut₁
        exact (hdone h₂).elim
  | three hl hu hs =>
      obtain ⟨cut₁, rfl, h₁⟩ := cut_cons heq hcut
      rw [decodeFrom_lead (leadByte_three (by omega) (by omega))]
      by_cases hcut₁ : cut₁ = []
      · rw [hcut₁]
        rfl
      · obtain ⟨cut₂, rfl, h₂⟩ := cut_cons h₁ hcut₁
        rw [decodeFrom_next (by split_ifs <;> omega) (by split_ifs <;> omega)]
        by_cases hcut₂ : cut₂ = []
        · rw [hcut₂]
          rfl
        · obtain ⟨cut₃, rfl, h₃⟩ := cut_cons h₂ hcut₂
          exact (hdone h₃).elim
  | four hl hu =>
      obtain ⟨cut₁, rfl, h₁⟩ := cut_cons heq hcut
      rw [decodeFrom_lead (leadByte_four (by omega) (by omega))]
      by_cases hcut₁ : cut₁ = []
      · rw [hcut₁]
        rfl
      · obtain ⟨cut₂, rfl, h₂⟩ := cut_cons h₁ hcut₁
        rw [decodeFrom_next (by split_ifs <;> omega) (by split_ifs <;> omega)]
        by_cases hcut₂ : cut₂ = []
        · rw [hcut₂]
          rfl
        · obtain ⟨cut₃, rfl, h₃⟩ := cut_cons h₂ hcut₂
          rw [decodeFrom_next (by omega) (by omega)]
          by_cases hcut₃ : cut₃ = []
          · rw [hcut₃]
            rfl
          · obtain ⟨cut₄, rfl, h₄⟩ := cut_cons h₃ hcut₃
            exact (hdone h₄).elim

/-! ## Texts -/

theorem decode_chars (cs : List Char) (rest : List Nat) :
    decode (cs.flatMap utf8 ++ rest) = cs.flatMap utf16 ++ decode rest := by
  induction cs with
  | nil => rfl
  | cons c cs ih =>
      have hunits : unitsOf c.toNat = utf16 c := rfl
      rw [List.flatMap_cons, List.append_assoc, decode, (encoded_utf8 c).decode, hunits,
        List.flatMap_cons, List.append_assoc]
      exact congrArg _ ih

/-- A character of which not all bytes are there. -/
def IsCut (part : List Nat) (c : Char) : Prop :=
  ∃ missing, part ++ missing = utf8 c ∧ part ≠ [] ∧ missing ≠ []

/-- The bytes at the front of a text are those of whole characters, or one more is cut. -/
theorem decode_front {cs : List Char} (h : cut ++ bytes = cs.flatMap utf8) :
    (∃ us vs, cs = us ++ vs ∧ cut = us.flatMap utf8 ∧ bytes = vs.flatMap utf8)
      ∨ ∃ us c vs part, cs = us ++ c :: vs ∧ cut = us.flatMap utf8 ++ part ∧ IsCut part c
        ∧ decode cut = us.flatMap utf16 ++ [replacement] := by
  induction cs generalizing cut with
  | nil =>
      obtain ⟨rfl, rfl⟩ := List.append_eq_nil_iff.mp h
      exact .inl ⟨[], [], rfl, rfl, rfl⟩
  | cons c cs ih =>
      rw [List.flatMap_cons] at h
      by_cases hcut : cut = []
      · rw [hcut] at h ⊢
        exact .inl ⟨[], c :: cs, rfl, rfl, h⟩
      obtain ⟨a, ha, hbytes⟩ | ⟨a, rfl, ha⟩ := List.append_eq_append_iff.mp h
      · by_cases hnil : a = []
        · rw [hnil, List.append_nil] at ha
          rw [hnil, List.nil_append] at hbytes
          exact .inl ⟨[c], cs, rfl, by rw [← ha]; simp, hbytes⟩
        · have henc := encoded_utf8 c
          rw [ha] at henc
          exact .inr ⟨[], c, cs, cut, rfl, rfl, ⟨a, ha.symm, hcut, hnil⟩,
            henc.decode_cut hcut hnil⟩
      · obtain ⟨us, vs, rfl, rfl, hvs⟩ | ⟨us, d, vs, part, rfl, rfl, hpart, hus⟩ := ih ha.symm
        · exact .inl ⟨c :: us, vs, rfl, rfl, hvs⟩
        · refine .inr ⟨c :: us, d, vs, part, rfl, ?_, hpart, ?_⟩
          · rw [List.flatMap_cons, List.append_assoc]
          · have hdecode := decode_chars [c] (us.flatMap utf8 ++ part)
            rw [List.flatMap_singleton, List.flatMap_singleton, hus] at hdecode
            rw [hdecode, List.flatMap_cons, List.append_assoc]

end Unicode

end GenieAcs
