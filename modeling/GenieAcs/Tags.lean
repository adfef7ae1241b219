import GenieAcs.Lib.UriComponent
import GenieAcs.PathText

/-!
# Tags in parameter names

`encodeTag` percent-encodes a tag and writes `0x` for the percent signs, and escapes a
`0x` of the tag if two digits or capitals are behind it at that time. If only one is,
and a percent sign behind it, then writing `0x` for the sign puts a second one there.
`decodeTag` takes the `0x` of the tag for an escape then, and its percent sign is
followed by another one (`encodeTag_iff`).
-/

namespace GenieAcs

open Unicode UriComponent

namespace Tag

/-! ## Encoding and decoding -/

/-- `[0-9A-Z]`. -/
def markChar (c : Nat) : Bool := (48 ≤ c ∧ c ≤ 57) ∨ (65 ≤ c ∧ c ≤ 90)

/-- `(?=[0-9A-Z]{2})`. -/
def lookahead : JsString → Bool
  | d :: e :: _ => markChar d && markChar e
  | _ => false

/-- `replace(/0x(?=[0-9A-Z]{2})/g, rep)`. -/
def replaceMarkers (rep : JsString) : JsString → JsString
  | 48 :: 120 :: cs =>
      if lookahead cs then rep ++ replaceMarkers rep cs else 48 :: 120 :: replaceMarkers rep cs
  | c :: cs => c :: replaceMarkers rep cs
  | [] => []

/-- The characters of `[!~*'().]`; their codes have two hexadecimal digits. -/
def special (c : Nat) : Bool := c ∈ [33, 126, 42, 39, 40, 41, 46]

def escapeSpecial (s : JsString) : JsString :=
  s.flatMap fun c => if special c then percentByte c else [c]

/-- `replace(/%/g, "0x")`. -/
def hidePercents (s : JsString) : JsString := s.flatMap fun c => if c = '%'.toNat then js "0x" else [c]

/-- `none` is a `URIError`. -/
def encodeTag (tag : JsString) : Option JsString :=
  (encodeURIComponent tag).map fun s =>
    hidePercents (replaceMarkers (js "0%78") (escapeSpecial s))

/-- `none` is a `URIError`. -/
def decodeTag (tag : JsString) : Option JsString :=
  decodeURIComponent (replaceMarkers (js "%") tag)

/-! ## Percent-encoded tags -/

/-- Letters, digits, `-` and `_` are kept. -/
def kept (c : Nat) : Bool := unreserved c && !special c

/-- What a character of a tag becomes before `0x` is looked for. -/
def charText (c : Char) : JsString := if kept c.toNat then [c.toNat] else escape c

def escaped (t : List Char) : JsString := t.flatMap charText

theorem special_iff {c : Nat} : special c = true ↔
    c = 33 ∨ c = 126 ∨ c = 42 ∨ c = 39 ∨ c = 40 ∨ c = 41 ∨ c = 46 := by
  simp [special]

theorem kept_iff {c : Nat} : kept c = true ↔ legalChar c = true := by
  rw [kept, Bool.and_eq_true, Bool.not_eq_true', ← Bool.not_eq_true, unreserved_iff, special_iff,
    legalChar, decide_eq_true_eq]
  omega

theorem mem_escape {c : Char} {u : Nat} (h : u ∈ escape c) : u = '%'.toNat ∨ IsHexDigit u := by
  obtain ⟨b, hb, hu⟩ := List.mem_flatMap.mp h
  have hlt := utf8_lt hb
  simp only [percentByte, List.mem_cons, List.not_mem_nil, or_false] at hu
  rcases hu with rfl | rfl | rfl
  · exact .inl rfl
  · exact .inr (hexDigit_spec (by omega)).1
  · exact .inr (hexDigit_spec (by omega)).1

theorem special_escape {c : Char} {u : Nat} (h : u ∈ escape c) : special u = false := by
  have hhex : ∀ u, IsHexDigit u → special u = false := by
    intro u hu
    unfold IsHexDigit at hu
    simp only [Char.reduceToNat] at hu
    rw [← Bool.not_eq_true, special_iff]
    omega
  rcases mem_escape h with rfl | h
  · rfl
  · exact hhex u h

theorem escapeSpecial_encoded (c : Char) : escapeSpecial (encoded c) = charText c := by
  unfold encoded charText
  by_cases hc : unreserved c.toNat = true
  · rw [if_pos hc]
    by_cases hs : special c.toNat = true
    · have hkept : ¬ kept c.toNat = true := by simp [kept, hs]
      have hlt : c.toNat < 0x80 := by
        rw [special_iff] at hs
        omega
      rw [if_neg hkept, escape, utf8_ascii hlt]
      simp [escapeSpecial, hs]
    · have hkept : kept c.toNat = true := by simp [kept, hs, hc]
      rw [if_pos hkept]
      simp [escapeSpecial, hs]
  · have hkept : ¬ kept c.toNat = true := by simp [kept, hc]
    rw [if_neg hc, if_neg hkept]
    have hall : ∀ u ∈ escape c, (if special u then percentByte u else [u]) = [u] := by
      intro u hu
      rw [special_escape hu]
      rfl
    rw [escapeSpecial, List.flatMap_congr hall]
    exact List.flatMap_singleton' _

/-! ## Markers -/

section Markers

variable {rep cs : JsString} {c : Nat}

theorem replaceMarkers_marker (h : lookahead cs = true) :
    replaceMarkers rep (48 :: 120 :: cs) = rep ++ replaceMarkers rep cs := by
  rw [replaceMarkers, if_pos h]

theorem replaceMarkers_skip (h : ¬ lookahead cs = true) :
    replaceMarkers rep (48 :: 120 :: cs) = 48 :: 120 :: replaceMarkers rep cs := by
  rw [replaceMarkers, if_neg h]

theorem replaceMarkers_other (h : c = 48 → cs.head? ≠ some 120) :
    replaceMarkers rep (c :: cs) = c :: replaceMarkers rep cs := by
  rw [replaceMarkers]
  rintro cs rfl rfl
  exact h rfl rfl

theorem replaceMarkers_ne (h : c ≠ 48) :
    replaceMarkers rep (c :: cs) = c :: replaceMarkers rep cs :=
  replaceMarkers_other fun heq => absurd heq h

theorem replaceMarkers_percent :
    replaceMarkers rep ('%'.toNat :: cs) = '%'.toNat :: replaceMarkers rep cs :=
  replaceMarkers_ne (by decide)

/-- Induction over the places where `0x` stands. -/
theorem markerInduction {motive : JsString → Prop} (nil : motive [])
    (marker : ∀ cs, motive cs → motive (48 :: 120 :: cs))
    (other : ∀ c cs, (c = 48 → cs.head? ≠ some 120) → motive cs → motive (c :: cs)) :
    ∀ s, motive s
  | [] => nil
  | c :: [] => other c [] (fun _ h => nomatch h) nil
  | c :: d :: cs => by
      by_cases h : c = 48 ∧ d = 120
      · obtain ⟨rfl, rfl⟩ := h
        exact marker cs (markerInduction nil marker other cs)
      · refine other c (d :: cs) (fun hc hd => h ⟨hc, Option.some.inj hd⟩) ?_
        exact markerInduction nil marker other (d :: cs)

end Markers

/-- What stands before `decodeURIComponent` when a percent-encoded tag was encoded. -/
def restored (s : JsString) : JsString :=
  replaceMarkers (js "%") (hidePercents (replaceMarkers (js "0%78") s))

/-- A percent sign has two digits behind it. -/
def WellEscaped (s : JsString) : Prop :=
  ∀ r, '%'.toNat :: r <:+ s → ∃ h l r', r = h :: l :: r' ∧ IsHexDigit h ∧ IsHexDigit l

/-- A `0x` with a digit or capital and a percent sign behind it, or with one that
becomes a percent sign. -/
def Collision (s : JsString) : Prop :=
  ∃ d rest, s = 48 :: 120 :: d :: rest ∧ markChar d = true
    ∧ (rest.head? = some '%'.toNat ∨ (d = 48 ∧ ∃ cs, rest = 120 :: cs ∧ lookahead cs = true))

theorem WellEscaped.of_suffix {s t : JsString} (h : WellEscaped s) (ht : t <:+ s) : WellEscaped t :=
  fun r hr => h r (hr.trans ht)

theorem hidePercents_cons {c : Nat} (hc : c ≠ '%'.toNat) (s : JsString) :
    hidePercents (c :: s) = c :: hidePercents s := by
  rw [hidePercents, List.flatMap_cons, if_neg hc]
  rfl

theorem hidePercents_percent (s : JsString) :
    hidePercents ('%'.toNat :: s) = 48 :: 120 :: hidePercents s := by
  rw [hidePercents, List.flatMap_cons, if_pos rfl]
  rfl

/-- The first unit stays where it is. -/
theorem head?_hidden {e : Nat} (he : e ≠ '%'.toNat) (r : JsString) :
    (hidePercents (replaceMarkers (js "0%78") (e :: r))).head? = some e := by
  have hplain : ∀ s, (hidePercents (e :: s)).head? = some e := fun s => by
    rw [hidePercents_cons he]
    rfl
  by_cases h : e = 48 → r.head? ≠ some 120
  · rw [replaceMarkers_other h]
    exact hplain _
  · obtain ⟨rfl, hr⟩ := Classical.not_imp.mp h
    obtain ⟨cs, rfl⟩ : ∃ cs, r = 120 :: cs := by
      cases r with
      | nil => exact absurd hr (by simp)
      | cons x cs => exact ⟨cs, by rw [Option.some.inj (not_not.mp hr)]⟩
    by_cases hahead : lookahead cs = true
    · rw [replaceMarkers_marker hahead]
      exact hplain _
    · rw [replaceMarkers_skip hahead]
      exact hplain _

theorem lookahead_cons (d : Nat) (s : JsString) :
    lookahead (d :: s) = (markChar d && s.head?.any markChar) := by
  cases s with
  | nil => simp [lookahead]
  | cons e s => rfl

/-- Two digits or capitals are ahead of a `0x` in the end if they were at first, or if
the `0x` collides. -/
theorem lookahead_hidden (cs : JsString) :
    lookahead (hidePercents (replaceMarkers (js "0%78") cs)) = true
      ↔ lookahead cs = true ∨ Collision (48 :: 120 :: cs) := by
  have hcollision : ∀ d rest, Collision (48 :: 120 :: d :: rest) ↔ markChar d = true
      ∧ (rest.head? = some '%'.toNat
        ∨ (d = 48 ∧ ∃ cs, rest = 120 :: cs ∧ lookahead cs = true)) := by
    intro d rest
    constructor
    · rintro ⟨d', rest', heq, h⟩
      cases heq
      exact h
    · exact fun h => ⟨d, rest, rfl, h⟩
  cases cs with
  | nil =>
      refine iff_of_false (fun h => nomatch h) ?_
      rintro (h | ⟨d, rest, h, -⟩)
      · cases h
      · cases h
  | cons d rest =>
      rw [hcollision, lookahead_cons, Bool.and_eq_true]
      by_cases hd : d = '%'.toNat
      · subst hd
        rw [replaceMarkers_percent, hidePercents_percent]
        refine iff_of_false (fun h => nomatch h) ?_
        rintro (⟨h, -⟩ | ⟨h, -⟩)
        · cases h
        · cases h
      · by_cases hx : d = 48 ∧ ∃ cs, rest = 120 :: cs
        · obtain ⟨rfl, cs, rfl⟩ := hx
          by_cases hahead : lookahead cs = true
          · rw [replaceMarkers_marker hahead]
            exact iff_of_true rfl (.inr ⟨rfl, .inr ⟨rfl, cs, rfl, hahead⟩⟩)
          · rw [replaceMarkers_skip hahead]
            refine iff_of_false (fun h => nomatch h) ?_
            rintro (⟨-, h⟩ | ⟨-, h | ⟨-, cs', h, h'⟩⟩)
            · cases h
            · cases h
            · cases h
              exact hahead h'
        · have hother : d = 48 → rest.head? ≠ some 120 := by
            rintro rfl hrest
            cases rest with
            | nil => cases hrest
            | cons x rest => exact hx ⟨rfl, rest, by rw [Option.some.inj hrest]⟩
          have hnot : ¬ (d = 48 ∧ ∃ cs, rest = 120 :: cs ∧ lookahead cs = true) :=
            fun ⟨h, cs, h', _⟩ => hx ⟨h, cs, h'⟩
          rw [replaceMarkers_other hother, hidePercents_cons hd, lookahead_cons, Bool.and_eq_true,
            ← and_or_left, or_iff_left hnot]
          refine and_congr_right fun _ => ?_
          cases rest with
          | nil => simp [replaceMarkers, hidePercents]
          | cons e r =>
              by_cases he : e = '%'.toNat
              · subst he
                rw [replaceMarkers_percent, hidePercents_percent]
                exact iff_of_true rfl (.inr rfl)
              · rw [head?_hidden he]
                exact (or_iff_left fun h => he (Option.some.inj h)).symm

theorem Collision.not_lookahead {cs : JsString} (h : Collision (48 :: 120 :: cs)) :
    ¬ lookahead cs = true := by
  obtain ⟨d, rest, heq, hd, hrest⟩ := h
  cases heq
  rw [lookahead_cons, hd]
  rcases hrest with hrest | ⟨-, cs, rfl, -⟩
  · rw [hrest]
    decide
  · show ¬ (true && (some 120).any markChar) = true
    decide

section Restored

variable {cs : JsString} {c : Nat}

theorem restored_marker (h : lookahead cs = true) :
    restored (48 :: 120 :: cs) = js "0%78" ++ restored cs := by
  have htext : hidePercents (js "0%78" ++ replaceMarkers (js "0%78") cs)
      = 48 :: 48 :: 120 :: 55 :: 56 :: hidePercents (replaceMarkers (js "0%78") cs) := rfl
  have hahead : lookahead (55 :: 56 :: hidePercents (replaceMarkers (js "0%78") cs)) = true := rfl
  rw [restored, replaceMarkers_marker h, htext, replaceMarkers_other (fun _ => by simp),
    replaceMarkers_marker hahead, replaceMarkers_ne (by decide), replaceMarkers_ne (by decide)]
  rfl

theorem restored_collision (h : Collision (48 :: 120 :: cs)) :
    restored (48 :: 120 :: cs) = '%'.toNat :: restored cs := by
  rw [restored, replaceMarkers_skip h.not_lookahead]
  exact replaceMarkers_marker ((lookahead_hidden cs).mpr (.inr h))

theorem restored_skip (h : ¬ lookahead cs = true) (hnot : ¬ Collision (48 :: 120 :: cs)) :
    restored (48 :: 120 :: cs) = 48 :: 120 :: restored cs := by
  rw [restored, replaceMarkers_skip h]
  exact replaceMarkers_skip fun hahead => ((lookahead_hidden cs).mp hahead).elim h hnot

theorem hexDigit_mark {c : Nat} (h : IsHexDigit c) : markChar c = true := by
  unfold IsHexDigit at h
  simp only [Char.reduceToNat] at h
  rw [markChar, decide_eq_true_eq]
  omega

theorem restored_percent (h : WellEscaped ('%'.toNat :: cs)) :
    restored ('%'.toNat :: cs) = '%'.toNat :: restored cs := by
  obtain ⟨d, e, r, rfl, hd, he⟩ := h cs List.suffix_rfl
  have hahead : lookahead (d :: e :: r) = true := by
    rw [lookahead_cons, hexDigit_mark hd]
    exact hexDigit_mark he
  rw [restored, replaceMarkers_percent, hidePercents_percent]
  exact replaceMarkers_marker ((lookahead_hidden _).mpr (.inl hahead))

theorem restored_other (hc : c ≠ '%'.toNat) (h : c = 48 → cs.head? ≠ some 120) :
    restored (c :: cs) = c :: restored cs := by
  rw [restored, replaceMarkers_other h, hidePercents_cons hc]
  refine replaceMarkers_other fun hc hhead => ?_
  cases cs with
  | nil => cases hhead
  | cons e r =>
      by_cases he : e = '%'.toNat
      · subst he
        rw [replaceMarkers_percent, hidePercents_percent] at hhead
        cases hhead
      · rw [head?_hidden he] at hhead
        exact h hc hhead

end Restored

/-- Without collisions the markers are restored as they were written. -/
theorem restored_eq {s : JsString} (hs : WellEscaped s) (h : ∀ r, r <:+ s → ¬ Collision r) :
    restored s = replaceMarkers (js "0%78") s := by
  induction s using markerInduction with
  | nil => rfl
  | marker cs ih =>
      have hsuffix : cs <:+ 48 :: 120 :: cs := List.suffix_append [48, 120] cs
      have ih := ih (hs.of_suffix hsuffix) fun r hr => h r (hr.trans hsuffix)
      by_cases hahead : lookahead cs = true
      · rw [restored_marker hahead, replaceMarkers_marker hahead, ih]
      · rw [restored_skip hahead (h _ List.suffix_rfl), replaceMarkers_skip hahead, ih]
  | other c cs hother ih =>
      have hsuffix : cs <:+ c :: cs := List.suffix_cons c cs
      have ih := ih (hs.of_suffix hsuffix) fun r hr => h r (hr.trans hsuffix)
      rw [replaceMarkers_other hother, ← ih]
      by_cases hc : c = '%'.toNat
      · subst hc
        exact restored_percent hs
      · exact restored_other hc hother

/-- A percent sign follows another one too early. -/
def Early (s : JsString) : Prop := ∃ u d t, s = u ++ '%'.toNat :: d :: '%'.toNat :: t

theorem Early.append {s : JsString} (h : Early s) (v : JsString) : Early (v ++ s) := by
  obtain ⟨u, d, t, rfl⟩ := h
  exact ⟨v ++ u, d, t, (List.append_assoc ..).symm⟩

theorem Collision.early {s r : JsString} (hs : WellEscaped s) (hr : r <:+ s) (h : Collision r) :
    Early (restored s) := by
  induction s using markerInduction with
  | nil =>
      obtain rfl := List.suffix_nil.mp hr
      obtain ⟨d, rest, heq, -⟩ := h
      cases heq
  | marker cs ih =>
      have hsuffix : cs <:+ 48 :: 120 :: cs := List.suffix_append [48, 120] cs
      have hws := hs.of_suffix hsuffix
      by_cases hcs : Collision (48 :: 120 :: cs)
      · rw [restored_collision hcs]
        obtain ⟨d, rest, heq, hd, hrest⟩ := hcs
        cases heq
        have hdp : d ≠ '%'.toNat := by
          rintro rfl
          cases hd
        rcases hrest with hrest | ⟨rfl, cs, rfl, hahead⟩
        · cases rest with
          | nil => cases hrest
          | cons e r =>
              obtain rfl := Option.some.inj hrest
              have hr := hws.of_suffix (List.suffix_cons d ('%'.toNat :: r))
              refine ⟨[], d, restored r, ?_⟩
              rw [restored_other hdp (fun _ => by simp), restored_percent hr]
              rfl
        · rw [restored_marker hahead]
          exact ⟨[], 48, 55 :: 56 :: restored cs, rfl⟩
      · have hr : r <:+ cs := by
          rcases List.suffix_cons_iff.mp hr with rfl | hr
          · exact absurd h hcs
          · rcases List.suffix_cons_iff.mp hr with rfl | hr
            · obtain ⟨d, rest, heq, -⟩ := h
              cases heq
            · exact hr
        have ih := ih hws hr
        by_cases hahead : lookahead cs = true
        · rw [restored_marker hahead]
          exact ih.append _
        · rw [restored_skip hahead hcs]
          exact ih.append [48, 120]
  | other c cs hother ih =>
      have hws := hs.of_suffix (List.suffix_cons c cs)
      have hr : r <:+ cs := by
        rcases List.suffix_cons_iff.mp hr with rfl | hr
        · obtain ⟨d, rest, heq, -⟩ := h
          cases heq
          exact absurd rfl (hother rfl)
        · exact hr
      have ih := ih hws hr
      by_cases hc : c = '%'.toNat
      · subst hc
        rw [restored_percent hs]
        exact ih.append ['%'.toNat]
      · rw [restored_other hc hother]
        exact ih.append [c]

/-! ## Tags and their collisions -/

theorem charText_kept {c : Char} (h : kept c.toNat = true) : charText c = [c.toNat] := if_pos h

theorem charText_escape {c : Char} (h : ¬ kept c.toNat = true) : charText c = escape c := if_neg h

theorem wellEscaped_cons {c : Nat} {s : JsString} (hc : c ≠ '%'.toNat) (hs : WellEscaped s) :
    WellEscaped (c :: s) := by
  intro r hr
  rcases List.suffix_cons_iff.mp hr with heq | hr
  · exact absurd (List.head_eq_of_cons_eq heq).symm hc
  · exact hs r hr

theorem hexDigit_ne {c : Nat} (h : IsHexDigit c) : c ≠ '%'.toNat ∧ c ≠ 120 := by
  constructor
  · rintro rfl
    exact absurd h (by decide)
  · rintro rfl
    exact absurd h (by decide)

theorem wellEscaped_percentBytes {bs : List Nat} {s : JsString} (hbs : ∀ b ∈ bs, b < 256)
    (hs : WellEscaped s) : WellEscaped (bs.flatMap percentByte ++ s) := by
  induction bs with
  | nil => exact hs
  | cons b bs ih =>
      obtain ⟨hb, hbs⟩ := List.forall_mem_cons.mp hbs
      have hhigh := (hexDigit_spec (show b / 16 < 16 by omega)).1
      have hlow := (hexDigit_spec (show b % 16 < 16 by omega)).1
      rw [List.flatMap_cons, List.append_assoc]
      intro r hr
      rcases List.suffix_cons_iff.mp hr with heq | hr
      · cases heq
        exact ⟨_, _, _, rfl, hhigh, hlow⟩
      · exact wellEscaped_cons (hexDigit_ne hhigh).1 (wellEscaped_cons (hexDigit_ne hlow).1 (ih hbs)) r hr

theorem kept_ne {c : Nat} (h : kept c = true) : c ≠ '%'.toNat := by
  rintro rfl
  exact absurd h (by decide)

theorem wellEscaped_escaped (t : List Char) : WellEscaped (escaped t) := by
  induction t with
  | nil => exact fun r hr => nomatch List.suffix_nil.mp hr
  | cons c t ih =>
      rw [escaped, List.flatMap_cons]
      by_cases hc : kept c.toNat = true
      · rw [charText_kept hc]
        exact wellEscaped_cons (kept_ne hc) ih
      · rw [charText_escape hc]
        exact wellEscaped_percentBytes (fun _ => utf8_lt) ih

/-- The percent-encoded tag, up to its markers. -/
theorem encodeTag_eq (t : List Char) : encodeTag (t.flatMap utf16)
    = some (hidePercents (replaceMarkers (js "0%78") (escaped t))) := by
  have hencode : encodeURIComponent (t.flatMap utf16) = some (t.flatMap encoded) := by
    induction t with
    | nil => rfl
    | cons c t ih =>
        rw [List.flatMap_cons, encode_utf16, ih]
        rfl
  have hspecial : escapeSpecial (t.flatMap encoded) = escaped t := by
    rw [escapeSpecial, List.flatMap_assoc, escaped]
    congr 1
    funext c
    exact escapeSpecial_encoded c
  rw [encodeTag, hencode, Option.map_some, hspecial]

theorem mem_replaceMarkers {rep s : JsString} {c : Nat} (h : c ∈ replaceMarkers rep s) :
    c ∈ rep ∨ c ∈ s := by
  induction s using markerInduction with
  | nil => exact .inr h
  | marker cs ih =>
      by_cases hahead : lookahead cs = true
      · rw [replaceMarkers_marker hahead] at h
        rcases List.mem_append.mp h with h | h
        · exact .inl h
        · exact (ih h).imp_right fun h => List.mem_cons_of_mem _ (List.mem_cons_of_mem _ h)
      · rw [replaceMarkers_skip hahead] at h
        rw [List.mem_cons, List.mem_cons] at h ⊢
        rcases h with rfl | rfl | h
        · exact .inr (.inl rfl)
        · exact .inr (.inr (.inl rfl))
        · exact (ih h).imp_right fun h => .inr (.inr h)
  | other c' cs hother ih =>
      rw [replaceMarkers_other hother] at h
      rcases List.mem_cons.mp h with rfl | h
      · exact .inr (List.mem_cons_self ..)
      · exact (ih h).imp_right (List.mem_cons_of_mem _)

theorem hexDigit_legal {c : Nat} (h : IsHexDigit c) : legalChar c = true := by
  unfold IsHexDigit at h
  simp only [Char.reduceToNat] at h
  rw [legalChar, decide_eq_true_eq]
  omega

theorem escaped_legal {t : List Char} : ∀ c ∈ escaped t, c = '%'.toNat ∨ legalChar c = true := by
  intro c hc
  obtain ⟨ch, -, hc⟩ := List.mem_flatMap.mp hc
  by_cases hkept : kept ch.toNat = true
  · rw [charText_kept hkept] at hc
    rw [List.mem_singleton.mp hc]
    exact .inr (kept_iff.mp hkept)
  · rw [charText_escape hkept] at hc
    exact (mem_escape hc).imp_right hexDigit_legal

/-- The name of a tag is legal in a path. -/
theorem encoded_legal (t : List Char) :
    ∀ c ∈ hidePercents (replaceMarkers (js "0%78") (escaped t)), legalChar c = true := by
  intro c hc
  obtain ⟨u, hu, hc⟩ := List.mem_flatMap.mp hc
  have hlegal : u = '%'.toNat ∨ legalChar u = true := by
    rcases mem_replaceMarkers hu with hu | hu
    · have hrep : ∀ u ∈ js "0%78", u = '%'.toNat ∨ legalChar u = true := by decide
      exact hrep u hu
    · exact escaped_legal u hu
  split_ifs at hc with hpercent
  · have hmarker : ∀ c ∈ js "0x", legalChar c = true := by decide
    exact hmarker c hc
  · rw [List.mem_singleton.mp hc]
    exact hlegal.resolve_left hpercent

/-! ## Tags that are read back -/

theorem percent_of_escape (c : Char) : ∃ r, escape c = '%'.toNat :: r := by
  unfold escape
  cases hbytes : utf8 c with
  | nil => exact absurd hbytes (utf8_ne_nil c)
  | cons b bs => exact ⟨_, rfl⟩

/-- A unit other than the percent sign at the front is a character that was kept. -/
theorem escaped_cons {t : List Char} {c : Nat} {r : JsString} (h : escaped t = c :: r)
    (hc : c ≠ '%'.toNat) :
    ∃ ch t', t = ch :: t' ∧ ch.toNat = c ∧ kept c = true ∧ escaped t' = r := by
  cases t with
  | nil => cases h
  | cons ch t =>
      rw [escaped, List.flatMap_cons] at h
      by_cases hkept : kept ch.toNat = true
      · rw [charText_kept hkept] at h
        cases h
        exact ⟨ch, t, rfl, rfl, hkept, rfl⟩
      · obtain ⟨r', hr'⟩ := percent_of_escape ch
        rw [charText_escape hkept, hr'] at h
        exact absurd (List.head_eq_of_cons_eq h).symm hc

theorem eq_of_toNat {c d : Char} (h : c.toNat = d.toNat) : c = d := by
  rw [← Char.ofNat_toNat c, h, Char.ofNat_toNat]

theorem charText_x {c : Char} (h : 120 ∈ charText c) : c = 'x' := by
  by_cases hkept : kept c.toNat = true
  · rw [charText_kept hkept] at h
    exact eq_of_toNat (List.mem_singleton.mp h).symm
  · rw [charText_escape hkept] at h
    rcases mem_escape h with h | h
    · exact absurd h (by decide)
    · exact absurd rfl (hexDigit_ne h).2

theorem decode_charText (c : Char) (s : JsString) :
    decodeURIComponent (charText c ++ s) = (decodeURIComponent s).map (utf16 c ++ ·) := by
  by_cases hkept : kept c.toNat = true
  · have hlt : c.toNat < 0x10000 := by
      have h := kept_iff.mp hkept
      rw [legalChar, decide_eq_true_eq] at h
      omega
    rw [charText_kept hkept, utf16, if_pos hlt]
    exact decode_plain (kept_ne hkept) s
  · rw [charText_escape hkept, decode_escape]

/-- A marker can start at the last unit of `u`. -/
theorem replaceMarkers_append (rep : JsString) {u : JsString} (v : JsString) (hu : 120 ∉ u) :
    replaceMarkers rep (u ++ v) = u ++ replaceMarkers rep v
      ∨ ∃ v' w, v = 120 :: v' ∧ u = w ++ [48]
        ∧ replaceMarkers rep (u ++ v) = w ++ rep ++ replaceMarkers rep v' := by
  induction u with
  | nil => exact .inl rfl
  | cons c u ih =>
      rw [List.mem_cons, not_or] at hu
      by_cases h : c = 48 → (u ++ v).head? ≠ some 120
      · rw [List.cons_append, replaceMarkers_other h]
        rcases ih hu.2 with ih | ⟨v', w, rfl, rfl, ih⟩
        · exact .inl (by rw [ih]; rfl)
        · exact .inr ⟨v', c :: w, rfl, rfl, by rw [ih]; rfl⟩
      · obtain ⟨rfl, hhead⟩ := Classical.not_imp.mp h
        cases u with
        | cons d u =>
            rw [not_not] at hhead
            exact absurd (List.mem_cons.mpr (.inl (Option.some.inj hhead).symm)) hu.2
        | nil =>
            rw [not_not, List.nil_append] at hhead
            cases v with
            | nil => cases hhead
            | cons x v =>
                obtain rfl := Option.some.inj hhead
                by_cases hahead : lookahead v = true
                · exact .inr ⟨v, [], rfl, rfl, replaceMarkers_marker hahead⟩
                · refine .inl ?_
                  rw [replaceMarkers_ne (by decide)]
                  exact replaceMarkers_skip hahead

theorem decode_replaced : ∀ t : List Char,
    decodeURIComponent (replaceMarkers (js "0%78") (escaped t)) = some (t.flatMap utf16)
  | [] => rfl
  | c :: t => by
      have ih := decode_replaced t
      rw [escaped, List.flatMap_cons]
      by_cases hx : 120 ∈ charText c
      · obtain rfl := charText_x hx
        show decodeURIComponent (replaceMarkers (js "0%78") (120 :: escaped t)) = _
        rw [replaceMarkers_ne (by decide), decode_plain (by decide), ih]
        rfl
      · rcases replaceMarkers_append (js "0%78") (escaped t) hx with h | ⟨v, w, hv, hw, h⟩
        · rw [← escaped, h, decode_charText, ih]
          rfl
        · obtain ⟨ch, t', rfl, hch, -, rfl⟩ := escaped_cons hv (by decide)
          obtain rfl : ch = 'x' := eq_of_toNat hch
          have htext : w ++ js "0%78" = charText c ++ escape 'x' := by
            rw [hw, List.append_assoc]
            rfl
          rw [← escaped, h, htext, List.append_assoc, decode_charText, decode_escape,
            decode_replaced t']
          rfl

/-- A character that ends in a 0 when it is written, `x`, and a digit or capital, in
front of a character that is percent-encoded, or with a 0 for the digit in front of an
`x` and two more digits or capitals. -/
def Broken (t : List Char) : Prop :=
  ∃ s c d rest, t = s ++ c :: 'x' :: d :: rest ∧ (charText c).getLast? = some 48
    ∧ markChar d.toNat = true
    ∧ ((∃ e rest', rest = e :: rest' ∧ ¬ kept e.toNat = true)
      ∨ (d = '0' ∧ ∃ p q rest', rest = 'x' :: p :: q :: rest' ∧ markChar p.toNat = true
        ∧ markChar q.toNat = true))

theorem mark_kept {c : Nat} (h : markChar c = true) : kept c = true := by
  rw [markChar, decide_eq_true_eq] at h
  rw [kept_iff, legalChar, decide_eq_true_eq]
  omega

theorem escaped_mark {c : Char} (h : markChar c.toNat = true) (t : List Char) :
    escaped (c :: t) = c.toNat :: escaped t := by
  rw [escaped, List.flatMap_cons, charText_kept (mark_kept h)]
  rfl

theorem Broken.collision {t : List Char} (h : Broken t) :
    ∃ r, r <:+ escaped t ∧ Collision r := by
  obtain ⟨s, c, d, rest, rfl, hlast, hd, hrest⟩ := h
  obtain ⟨w, hw⟩ := List.getLast?_eq_some_iff.mp hlast
  refine ⟨48 :: 120 :: escaped (d :: rest), ⟨escaped s ++ w, ?_⟩, d.toNat, escaped rest, ?_, hd, ?_⟩
  · have htext : escaped (c :: 'x' :: d :: rest) = charText c ++ 120 :: escaped (d :: rest) := rfl
    have happend : escaped (s ++ c :: 'x' :: d :: rest) = escaped s ++ escaped (c :: 'x' :: d :: rest) :=
      List.flatMap_append
    rw [happend, htext, hw]
    simp
  · rw [escaped_mark hd]
  · rcases hrest with ⟨e, rest', rfl, he⟩ | ⟨rfl, p, q, rest', rfl, hp, hq⟩
    · obtain ⟨r, hr⟩ := percent_of_escape e
      rw [escaped, List.flatMap_cons, charText_escape he, hr]
      exact .inl rfl
    · refine .inr ⟨rfl, escaped (p :: q :: rest'), rfl, ?_⟩
      rw [escaped_mark hp, escaped_mark hq, lookahead_cons, hp]
      exact hq

/-- What stands behind the 0 of a collision. -/
theorem Collision.broken_cons {c : Char} {t : List Char} {w : JsString}
    (hw : charText c = w ++ [48]) (h : Collision (48 :: escaped t)) : Broken (c :: t) := by
  obtain ⟨d, rest, heq, hd, hrest⟩ := h
  obtain ⟨x, t, rfl, hx, -, htail⟩ := escaped_cons (List.tail_eq_of_cons_eq heq) (by decide)
  obtain rfl : x = 'x' := eq_of_toNat hx
  obtain ⟨d, t, rfl, rfl, -, rfl⟩ := escaped_cons htail (kept_ne (mark_kept hd))
  refine ⟨[], c, d, t, rfl, by simp [hw], hd, ?_⟩
  rcases hrest with hrest | ⟨hzero, cs, hcs, hahead⟩
  · left
    cases t with
    | nil => cases hrest
    | cons e t =>
        refine ⟨e, t, rfl, fun hkept => ?_⟩
        rw [escaped, List.flatMap_cons, charText_kept hkept] at hrest
        exact kept_ne hkept (Option.some.inj hrest)
  · obtain ⟨x, t, rfl, hx, -, rfl⟩ := escaped_cons hcs (by decide)
    obtain rfl : x = 'x' := eq_of_toNat hx
    refine .inr ⟨eq_of_toNat hzero, ?_⟩
    match htext : escaped t, hahead with
    | p :: q :: r, hahead =>
        rw [lookahead_cons, Bool.and_eq_true] at hahead
        obtain ⟨hp, hq⟩ := hahead
        obtain ⟨p, t, rfl, rfl, -, htail⟩ := escaped_cons htext (kept_ne (mark_kept hp))
        obtain ⟨q, t, rfl, rfl, -, -⟩ := escaped_cons htail (kept_ne (mark_kept hq))
        exact ⟨p, q, t, rfl, hp, hq⟩

theorem Collision.broken {t : List Char} {r : JsString} (hr : r <:+ escaped t)
    (h : Collision r) : Broken t := by
  induction t with
  | nil =>
      obtain rfl := List.suffix_nil.mp hr
      obtain ⟨d, rest, heq, -⟩ := h
      cases heq
  | cons c t ih =>
      have hlater : r <:+ escaped t → Broken (c :: t) := by
        intro hr
        obtain ⟨s, c', d, rest, rfl, hrest⟩ := ih hr
        exact ⟨c :: s, c', d, rest, rfl, hrest⟩
      have htail : escaped t <:+ escaped (c :: t) := List.suffix_append _ _
      rcases List.suffix_or_suffix_of_suffix hr htail with hr' | ⟨v, rfl⟩
      · exact hlater hr'
      · obtain ⟨w, hw⟩ := hr
        have hv : charText c = w ++ v := by
          rw [← List.append_assoc] at hw
          exact (List.append_cancel_right hw).symm
        match v with
        | [] => exact hlater List.suffix_rfl
        | x :: v =>
            obtain ⟨d, rest, heq, h⟩ := h
            obtain rfl : x = 48 := List.head_eq_of_cons_eq heq
            match v with
            | [] => exact Collision.broken_cons hv ⟨d, rest, heq, h⟩
            | y :: v =>
                obtain rfl : y = 120 := List.head_eq_of_cons_eq (List.tail_eq_of_cons_eq heq)
                obtain rfl := charText_x (c := c) (by rw [hv]; simp)
                have hmem : 48 ∈ charText 'x' := by
                  rw [hv]
                  simp
                exact absurd hmem (by decide)

/-! ## Round trips -/

/-- The name of a tag is legal in a path, and is decoded to the tag. -/
def Survives (t : List Char) : Prop :=
  ∃ name, encodeTag (t.flatMap utf16) = some name ∧ (∀ c ∈ name, legalChar c = true)
    ∧ decodeTag name = some (t.flatMap utf16)

theorem encodeTag_iff (t : List Char) : Survives t ↔ ¬ Broken t := by
  constructor
  · rintro ⟨name, hname, -, hdecode⟩ hbroken
    obtain ⟨r, hr, hcollision⟩ := hbroken.collision
    obtain ⟨u, d, v, hearly⟩ := hcollision.early (wellEscaped_escaped t) hr
    rw [encodeTag_eq] at hname
    cases hname
    have hnone : decodeURIComponent (restored (escaped t)) = none := by
      rw [hearly, decode_early]
    exact nomatch hdecode.symm.trans hnone
  · intro hbroken
    refine ⟨_, encodeTag_eq t, encoded_legal t, ?_⟩
    show decodeURIComponent (restored (escaped t)) = _
    rw [restored_eq (wellEscaped_escaped t) fun r hr h => hbroken (h.broken hr), decode_replaced]

/-- The tag `0xA` with a space behind it. -/
theorem space_breaks : ¬ Survives ['0', 'x', 'A', ' '] := by
  rintro ⟨name, hname, -, hdecode⟩
  obtain rfl : js "0xA0x20" = name := Option.some.inj hname
  exact nomatch hdecode

end Tag

end GenieAcs
