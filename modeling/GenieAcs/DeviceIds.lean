import GenieAcs.Lib.Unicode
import GenieAcs.Like

/-!
# Device ids

`esc` writes the bytes of a character in hexadecimal, without a leading 0, and takes
a surrogate for U+FFFD, the other half notwithstanding. So the text of a byte below 16
with a hexadecimal digit behind it is the text of the byte they spell together.
`reading` is what is left to tell of a component: two ids are the same just when the
components read alike (`generateDeviceId_eq_iff`).
-/

namespace GenieAcs

open Unicode

/-! ## Ids -/

/-- `deviceIdStruct`; `none` is a product class that is missing. -/
structure DeviceIdStruct where
  oui : JsString
  productClass : Option JsString
  serialNumber : JsString
  deriving DecidableEq

namespace DeviceIdStruct

/-- `[A-Za-z0-9_]`. -/
def wordChar (c : Nat) : Bool :=
  (65 ≤ c ∧ c ≤ 90) ∨ (97 ≤ c ∧ c ≤ 122) ∨ (48 ≤ c ∧ c ≤ 57) ∨ c = 95

/-- `b.toString(16).toUpperCase()`. -/
def byteText (b : Nat) : JsString :=
  if b < 16 then [hexDigit b] else [hexDigit (b / 16), hexDigit (b % 16)]

def escChar (chr : Nat) : JsString :=
  if wordChar chr = true then [chr]
  else (utf8 (ofUnit chr)).flatMap fun b => '%'.toNat :: byteText b

def esc (str : JsString) : JsString := str.flatMap escChar

def generateDeviceId (d : DeviceIdStruct) : JsString :=
  match d.productClass with
  | some (c :: cs) => esc d.oui ++ js "-" ++ esc (c :: cs) ++ js "-" ++ esc d.serialNumber
  | _ => esc d.oui ++ js "-" ++ esc d.serialNumber

/-! ## Readings -/

/-- A character that is kept, or a byte that is written in hexadecimal. -/
inductive Mark where
  | kept (c : Nat)
  | byte (b : Nat)
  deriving DecidableEq

def marks (str : JsString) : List Mark :=
  str.flatMap fun chr =>
    if wordChar chr = true then [.kept chr] else (utf8 (ofUnit chr)).map .byte

/-- A byte from 1 to 15 goes together with a hexadecimal digit behind it. -/
def join : List Mark → List Mark
  | .byte b :: .kept c :: ms =>
      if 0 < b ∧ b < 16 ∧ IsHexDigit c then .byte (16 * b + hexValue c) :: join ms
      else .byte b :: .kept c :: join ms
  | m :: ms => m :: join ms
  | [] => []

def reading (str : JsString) : List Mark := join (marks str)

def Mark.text : Mark → JsString
  | .kept c => [c]
  | .byte b => '%'.toNat :: byteText b

theorem text_small {b : Nat} (hb : b < 16) : (Mark.byte b).text = ['%'.toNat, hexDigit b] := by
  rw [Mark.text, byteText, if_pos hb]

theorem text_large {b : Nat} (hb : ¬ b < 16) :
    (Mark.byte b).text = ['%'.toNat, hexDigit (b / 16), hexDigit (b % 16)] := by
  rw [Mark.text, byteText, if_neg hb]

def Mark.Sound : Mark → Prop
  | .kept c => wordChar c = true
  | .byte b => b < 256

theorem esc_eq (str : JsString) : esc str = (marks str).flatMap Mark.text := by
  rw [esc, marks, List.flatMap_assoc]
  congr 1
  funext chr
  rw [escChar]
  split_ifs
  · rfl
  · rw [List.flatMap_map]
    rfl

theorem marks_sound (str : JsString) : ∀ m ∈ marks str, m.Sound := by
  intro m hm
  obtain ⟨chr, -, hm⟩ := List.mem_flatMap.mp hm
  split_ifs at hm with hword
  · rw [List.mem_singleton.mp hm]
    exact hword
  · obtain ⟨b, hb, rfl⟩ := List.mem_map.mp hm
    exact utf8_lt hb

/-- The marks of a text: the digits behind a percent sign, as many as there can be. -/
def readMarks : JsString → List Mark
  | [] => []
  | 37 :: h :: [] => [.byte (hexValue h)]
  | 37 :: h :: l :: cs =>
      if IsHexDigit l ∧ hexValue h ≠ 0 then .byte (16 * hexValue h + hexValue l) :: readMarks cs
      else .byte (hexValue h) :: readMarks (l :: cs)
  | c :: cs => .kept c :: readMarks cs

theorem readMarks_kept {c : Nat} (hc : c ≠ '%'.toNat) (cs : JsString) :
    readMarks (c :: cs) = .kept c :: readMarks cs := by
  rw [readMarks]
  · rintro h rfl
    exact absurd rfl hc
  · rintro h l cs' rfl
    exact absurd rfl hc

theorem wordChar_ne {c : Nat} (hc : wordChar c = true) : c ≠ '%'.toNat := by
  rintro rfl
  exact absurd hc (by decide)

/-- A byte is read back unless a digit behind it joins it. -/
theorem readMarks_byte {b : Nat} (hb : b < 256) {cs : JsString}
    (h : 0 < b → b < 16 → ¬ IsHexDigit (cs.headD 0)) :
    readMarks ((Mark.byte b).text ++ cs) = .byte b :: readMarks cs := by
  by_cases hsmall : b < 16
  · obtain ⟨-, hvalue⟩ := hexDigit_spec hsmall
    rw [text_small hsmall]
    cases cs with
    | nil =>
        show [Mark.byte (hexValue (hexDigit b))] = _
        rw [hvalue]
        rfl
    | cons l cs =>
        show (if IsHexDigit l ∧ hexValue (hexDigit b) ≠ 0 then _
          else Mark.byte (hexValue (hexDigit b)) :: readMarks (l :: cs)) = _
        rw [hvalue, if_neg fun hl => h (Nat.pos_of_ne_zero hl.2) hsmall hl.1]
  · obtain ⟨-, hhigh⟩ := hexDigit_spec (show b / 16 < 16 by omega)
    obtain ⟨hdigit, hlow⟩ := hexDigit_spec (show b % 16 < 16 by omega)
    rw [text_large hsmall]
    show (if IsHexDigit (hexDigit (b % 16)) ∧ hexValue (hexDigit (b / 16)) ≠ 0 then
      Mark.byte (16 * hexValue (hexDigit (b / 16)) + hexValue (hexDigit (b % 16))) :: readMarks cs
      else _) = _
    rw [hhigh, hlow, if_pos ⟨hdigit, by omega⟩, Nat.div_add_mod]

theorem readMarks_joined {b c : Nat} (h : 0 < b ∧ b < 16 ∧ IsHexDigit c) (cs : JsString) :
    readMarks ((Mark.byte b).text ++ c :: cs) = .byte (16 * b + hexValue c) :: readMarks cs := by
  obtain ⟨hpos, hsmall, hc⟩ := h
  obtain ⟨-, hvalue⟩ := hexDigit_spec hsmall
  rw [text_small hsmall]
  show (if IsHexDigit c ∧ hexValue (hexDigit b) ≠ 0 then
    Mark.byte (16 * hexValue (hexDigit b) + hexValue c) :: readMarks cs else _) = _
  rw [hvalue, if_pos ⟨hc, Nat.ne_of_gt hpos⟩]

/-- A text is read as the marks it was written for, joined. -/
theorem readMarks_text {ms : List Mark} (hms : ∀ m ∈ ms, m.Sound) :
    readMarks (ms.flatMap Mark.text) = join ms := by
  induction ms using join.induct with
  | case1 b c ms hjoin ih =>
      obtain ⟨-, hms⟩ := List.forall_mem_cons.mp hms
      obtain ⟨-, hms⟩ := List.forall_mem_cons.mp hms
      rw [List.flatMap_cons, List.flatMap_cons, join, if_pos hjoin, ← ih hms]
      exact readMarks_joined hjoin _
  | case2 b c ms hjoin ih =>
      obtain ⟨hb, hms⟩ := List.forall_mem_cons.mp hms
      obtain ⟨hc, hms⟩ := List.forall_mem_cons.mp hms
      rw [List.flatMap_cons, List.flatMap_cons, join, if_neg hjoin, ← ih hms,
        readMarks_byte hb]
      · congr 1
        exact readMarks_kept (wordChar_ne hc) _
      · exact fun hpos hsmall hdigit => hjoin ⟨hpos, hsmall, hdigit⟩
  | case3 m ms hnext ih =>
      obtain ⟨hm, hms⟩ := List.forall_mem_cons.mp hms
      rw [List.flatMap_cons, join, ← ih hms]
      · cases m with
        | kept c => exact readMarks_kept (wordChar_ne hm) _
        | byte b =>
            refine readMarks_byte hm fun _ _ => ?_
            -- what follows is no mark at all, or starts with a percent sign
            cases ms with
            | nil => decide
            | cons m ms =>
                cases m with
                | kept c => exact absurd rfl (hnext b c ms rfl)
                | byte b' =>
                    show ¬ IsHexDigit '%'.toNat
                    decide
      · exact hnext
  | case4 => rfl

theorem text_join {ms : List Mark} : (join ms).flatMap Mark.text = ms.flatMap Mark.text := by
  induction ms using join.induct with
  | case1 b c ms hjoin ih =>
      obtain ⟨hdigit, hvalue⟩ := hexDigit_hexValue hjoin.2.2
      rw [join, if_pos hjoin, List.flatMap_cons, List.flatMap_cons, List.flatMap_cons, ih,
        text_large (by omega), text_small hjoin.2.1, Nat.mul_add_div (by omega),
        Nat.div_eq_of_lt hvalue, Nat.add_zero, Nat.mul_add_mod, Nat.mod_eq_of_lt hvalue, hdigit]
      rfl
  | case2 b c ms hjoin ih =>
      rw [join, if_neg hjoin, List.flatMap_cons, List.flatMap_cons, List.flatMap_cons,
        List.flatMap_cons, ih]
  | case3 m ms hnext ih =>
      rw [join, List.flatMap_cons, List.flatMap_cons, ih]
      exact hnext
  | case4 => rfl

theorem esc_eq_iff {s t : JsString} : esc s = esc t ↔ reading s = reading t := by
  rw [esc_eq, esc_eq, reading, reading]
  constructor
  · intro h
    rw [← readMarks_text (marks_sound s), h, readMarks_text (marks_sound t)]
  · intro h
    rw [← text_join, h, text_join]

/-! ## Parts of an id -/

def idChar (c : Nat) : Prop := wordChar c = true ∨ c = '-'.toNat ∨ c = '%'.toNat

theorem hexDigit_word {c : Nat} (h : IsHexDigit c) : wordChar c = true := by
  unfold IsHexDigit at h
  simp only [Char.reduceToNat] at h
  simp only [wordChar, decide_eq_true_eq]
  omega

theorem text_chars {m : Mark} (hm : m.Sound) : ∀ c ∈ m.text, wordChar c = true ∨ c = '%'.toNat := by
  intro c hc
  cases m with
  | kept d =>
      obtain rfl := List.mem_singleton.mp hc
      exact .inl hm
  | byte b =>
      have hb : b < 256 := hm
      rcases List.mem_cons.mp hc with rfl | hc
      · exact .inr rfl
      · unfold byteText at hc
        split_ifs at hc with hsmall
        · obtain rfl := List.mem_singleton.mp hc
          exact .inl (hexDigit_word (hexDigit_spec hsmall).1)
        · rcases List.mem_pair.mp hc with rfl | rfl
          · exact .inl (hexDigit_word (hexDigit_spec (by omega)).1)
          · exact .inl (hexDigit_word (hexDigit_spec (by omega)).1)

theorem esc_chars (str : JsString) : ∀ c ∈ esc str, wordChar c = true ∨ c = '%'.toNat := by
  intro c hc
  rw [esc_eq] at hc
  obtain ⟨m, hm, hc⟩ := List.mem_flatMap.mp hc
  exact text_chars (marks_sound str m hm) c hc

theorem dash_not_mem (str : JsString) : '-'.toNat ∉ esc str := fun h =>
  absurd (esc_chars str _ h) (by decide)

/-- A text is cut at its first dash. -/
theorem cut {a b s t : JsString} (ha : '-'.toNat ∉ a) (hb : '-'.toNat ∉ b)
    (h : a ++ '-'.toNat :: s = b ++ '-'.toNat :: t) : a = b ∧ s = t := by
  induction a generalizing b with
  | nil =>
      cases b with
      | nil => exact ⟨rfl, List.tail_eq_of_cons_eq h⟩
      | cons x b => exact absurd (List.head_eq_of_cons_eq h ▸ List.mem_cons_self ..) hb
  | cons y a ih =>
      cases b with
      | nil => exact absurd (List.head_eq_of_cons_eq h ▸ List.mem_cons_self ..) ha
      | cons x b =>
          obtain rfl := List.head_eq_of_cons_eq h
          obtain ⟨rfl, rfl⟩ := ih (fun h => ha (List.mem_cons_of_mem _ h))
            (fun h => hb (List.mem_cons_of_mem _ h)) (List.tail_eq_of_cons_eq h)
          exact ⟨rfl, rfl⟩

theorem esc_eq_nil {str : JsString} (h : esc str = []) : str = [] := by
  cases str with
  | nil => rfl
  | cons c str =>
      obtain ⟨hc, -⟩ := List.append_eq_nil_iff.mp h
      unfold escChar at hc
      split_ifs at hc
      cases hbytes : utf8 (ofUnit c) with
      | nil => exact absurd hbytes (utf8_ne_nil _)
      | cons b bs =>
          rw [hbytes] at hc
          cases hc

/-! ## Ids that are the same -/

/-- A missing product class counts as an empty one. -/
def productClassOf (d : DeviceIdStruct) : JsString := d.productClass.getD []

structure Same (d d' : DeviceIdStruct) : Prop where
  oui : d.oui = d'.oui
  productClass : d.productClassOf = d'.productClassOf
  serialNumber : d.serialNumber = d'.serialNumber

/-- The components differ at most in which surrogate stands where, and in the way
the bytes of their characters are spelled. -/
structure ReadsAs (d d' : DeviceIdStruct) : Prop where
  oui : reading d.oui = reading d'.oui
  productClass : reading d.productClassOf = reading d'.productClassOf
  serialNumber : reading d.serialNumber = reading d'.serialNumber

theorem generateDeviceId_eq (d : DeviceIdStruct) : d.generateDeviceId
    = if d.productClassOf = [] then esc d.oui ++ '-'.toNat :: esc d.serialNumber
      else esc d.oui ++ '-'.toNat :: (esc d.productClassOf ++ '-'.toNat :: esc d.serialNumber) := by
  obtain ⟨oui, productClass, serialNumber⟩ := d
  unfold generateDeviceId productClassOf
  match productClass with
  | none => simp [js]
  | some [] => simp [js]
  | some (c :: cs) => simp [js]

theorem generateDeviceId_eq_iff {d d' : DeviceIdStruct} :
    d.generateDeviceId = d'.generateDeviceId ↔ d.ReadsAs d' := by
  have hdash := dash_not_mem
  have hmem : ∀ s t : JsString, '-'.toNat ∈ s ++ '-'.toNat :: t := fun s t =>
    List.mem_append_right _ (List.mem_cons_self ..)
  rw [generateDeviceId_eq, generateDeviceId_eq]
  constructor
  · intro h
    split_ifs at h with hd hd' hd'
    · obtain ⟨ho, hs⟩ := cut (hdash _) (hdash _) h
      exact ⟨esc_eq_iff.mp ho, by rw [hd, hd'], esc_eq_iff.mp hs⟩
    · obtain ⟨-, hs⟩ := cut (hdash _) (hdash _) h
      exact absurd (hs ▸ hmem _ _) (hdash d.serialNumber)
    · obtain ⟨-, hs⟩ := cut (hdash _) (hdash _) h
      exact absurd (hs ▸ hmem _ _) (hdash d'.serialNumber)
    · obtain ⟨ho, h⟩ := cut (hdash _) (hdash _) h
      obtain ⟨hp, hs⟩ := cut (hdash _) (hdash _) h
      exact ⟨esc_eq_iff.mp ho, esc_eq_iff.mp hp, esc_eq_iff.mp hs⟩
  · rintro ⟨ho, hp, hs⟩
    rw [← esc_eq_iff] at ho hp hs
    have hnil : d.productClassOf = [] ↔ d'.productClassOf = [] := by
      constructor
      · intro h
        exact esc_eq_nil (hp.symm.trans (by rw [h]; rfl))
      · intro h
        exact esc_eq_nil (hp.trans (by rw [h]; rfl))
    simp only [ho, hp, hs, hnil]

theorem generateDeviceId_chars (d : DeviceIdStruct) : ∀ c ∈ d.generateDeviceId, idChar c := by
  have hesc : ∀ s, ∀ c ∈ esc s, idChar c := fun s c hc =>
    (esc_chars s c hc).imp_right .inr
  have hcons : ∀ s : JsString, (∀ c ∈ s, idChar c) → ∀ c ∈ '-'.toNat :: s, idChar c :=
    fun s hs => List.forall_mem_cons.mpr ⟨.inr (.inl rfl), hs⟩
  rw [generateDeviceId_eq]
  split_ifs
  · exact List.forall_mem_append.mpr ⟨hesc _, hcons _ (hesc _)⟩
  · refine List.forall_mem_append.mpr ⟨hesc _, hcons _ ?_⟩
    exact List.forall_mem_append.mpr ⟨hesc _, hcons _ (hesc _)⟩

/-- Ids are of word characters, dashes and percent signs, and they are told apart
unless the components read alike. -/
theorem generateDeviceId_unique_iff (d d' : DeviceIdStruct) :
    ((∀ c ∈ d.generateDeviceId, idChar c) ∧ (d.generateDeviceId = d'.generateDeviceId → d.Same d'))
      ↔ ¬ (d.ReadsAs d' ∧ ¬ d.Same d') := by
  rw [and_iff_right (generateDeviceId_chars d), generateDeviceId_eq_iff, not_and_not_right]

/-- Serial numbers of one character beyond the basic plane. -/
theorem surrogates_same_id : ∃ d d' : DeviceIdStruct, d.oui ≠ [] ∧ d'.oui ≠ []
    ∧ d.serialNumber ≠ [] ∧ d'.serialNumber ≠ []
    ∧ d.generateDeviceId = d'.generateDeviceId ∧ ¬ d.Same d' :=
  ⟨⟨js "001A2B", none, utf16 '😀'⟩, ⟨js "001A2B", none, utf16 '😁'⟩, by decide, by decide, by decide,
    by decide, by decide, fun h => absurd h.serialNumber (by decide)⟩

end DeviceIdStruct

end GenieAcs
