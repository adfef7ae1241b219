import GenieAcs.XmlTags

/-!
# Comments and the declaration

The scanner looks for quotes in a comment as in a tag, and for the hyphens that end it
among those that open it. A comment is passed if neither matters (`runs_comment`).
-/

namespace GenieAcs

namespace Xml

open Attribute

/-! ## Comments -/

/-- A text in which no two hyphens follow each other. -/
structure Comment where
  text : JsString
  hyphens : ¬ js "--" <:+: text

def Comment.print (c : Comment) : JsString := js "<!--" ++ c.text ++ js "-->"

def quoteStep : Option Nat → Nat → Option Nat
  | none, c => if isQuote c then some c else none
  | some q, c => if c = q then none else some q

/-- The quote that is open after a text. -/
def openQuote (text : JsString) : Option Nat := text.foldl quoteStep none

/-- The hyphens that open the comment count as those that close it. -/
def Comment.EndsEarly (c : Comment) : Prop := js ">" <+: c.text ∨ js "->" <+: c.text

instance (c : Comment) : Decidable c.EndsEarly := inferInstanceAs (Decidable (_ ∨ _))

def Comment.Clean (c : Comment) : Prop :=
  if c.EndsEarly then '<'.toNat ∉ c.text else openQuote c.text = none

section Comments

variable {string before rest : JsString} {start k w : Nat} {s s' : Scanner}

/-- Within a comment, and within the quote if one is open. -/
def InComment (start : Nat) (s : Scanner) : Option Nat → Prop
  | none => ∃ k w, Inside start k w s
  | some q => isQuote q = true ∧ kindOf s.state1 = quoteState q ∧ ∃ k w, Inside start k w s.back

/-- The `>` in a comment ends it behind two hyphens. -/
theorem scan_comment {u more : JsString} (hs : Inside before.length k w s)
    (hstring : string = before ++ js "<!--" ++ u ++ more) :
    scan string (before ++ js "<!--" ++ u).length '>'.toNat s
      = .ok (if js "--" <:+ before ++ js "<!--" ++ u then s.back else s, none) := by
  have hlist : string = before ++ '<'.toNat :: '!'.toNat :: (js "--" ++ (u ++ more)) := by
    rw [hstring]
    simp [js]
  have hsecond : string[before.length + 1]? = some '!'.toNat := by
    refine getElem?_at (x := before ++ ['<'.toNat]) (y := js "--" ++ (u ++ more)) ?_ (by simp)
    rw [hlist]
    simp
  have hdrop : string.drop (before.length + 1) = '!'.toNat :: (js "--" ++ (u ++ more)) := by
    rw [hlist, ← List.drop_drop, List.drop_left]
    rfl
  have hcdata : startsAt string (js "![CDATA[") (before.length + 1) = false := by
    rw [startsAt, hdrop]
    rfl
  have hopen : startsAt string (js "!--") (before.length + 1) = true := by
    rw [startsAt, hdrop]
    rfl
  have htake : string.take (before ++ js "<!--" ++ u).length = before ++ js "<!--" ++ u := by
    rw [hstring, List.take_left]
  show scanGreaterThan string _ s = _
  rw [scanGreaterThan, if_neg (not_not.mpr hs.kind), hs.index, if_pos hsecond, hcdata,
    if_neg Bool.false_ne_true, if_pos hopen, endsAt, htake]
  simp only [List.isSuffixOf_iff_suffix]
  split_ifs <;> rfl

/-- Two hyphens in front of a unit of the text are in the text, or open the comment. -/
theorem not_early {c : Comment} (hearly : ¬ c.EndsEarly) {u v : JsString}
    (h : c.text = u ++ '>'.toNat :: v) : ¬ js "--" <:+ before ++ js "<!--" ++ u := by
  intro hsuffix
  rcases Nat.lt_or_ge u.length 2 with hshort | hlong
  · match u, hshort, h with
    | [], _, h => exact hearly (Or.inl ⟨v, h.symm⟩)
    | [a], _, h =>
        have hlast : ['-'.toNat, a] <:+ before ++ js "<!--" ++ [a] :=
          ⟨before ++ js "<!-", by simp [js]⟩
        have heq := (List.suffix_of_suffix_length_le hsuffix hlast (Nat.le_refl 2)).eq_of_length rfl
        have ha : a = '-'.toNat := (List.cons.inj (List.cons.inj heq).2).1.symm
        exact hearly (Or.inr ⟨v, by rw [h, ha]; rfl⟩)
  · have hwithin := (List.suffix_of_suffix_length_le hsuffix (List.suffix_append _ u) hlong).isInfix
    refine c.hyphens (hwithin.trans ?_)
    rw [h]
    exact (List.prefix_append _ _).isInfix

theorem scan_inComment {c : Comment} (hearly : ¬ c.EndsEarly) {u v : JsString} {a : Nat}
    (hstring : string = before ++ js "<!--" ++ (c.text ++ rest)) (htext : c.text = u ++ a :: v)
    (hs : InComment before.length s (openQuote u)) :
    ∃ s₁, scan string (before ++ js "<!--" ++ u).length a s = .ok (s₁, none) ∧
      InComment before.length s₁ (quoteStep (openQuote u) a) := by
  cases hopen : openQuote u with
  | none =>
      rw [hopen] at hs
      obtain ⟨k, w, hs⟩ := hs
      rw [quoteStep]
      split_ifs with hq
      · obtain ⟨s₁, hscan, hkind, hback⟩ := scan_open string _ hs hq
        exact ⟨s₁, hscan, hq, hkind, k, w, hback⟩
      · by_cases hgreater : a = '>'.toNat
        · subst hgreater
          have hscan := scan_comment (u := u) hs
            (hstring.trans (by rw [htext, List.append_assoc u, ← List.append_assoc _ u]))
          rw [if_neg (not_early hearly htext)] at hscan
          exact ⟨s, hscan, k, w, hs⟩
        · have hplain : plainUnit a = true := by
            rw [plainUnit, Bool.and_eq_true, Bool.not_eq_true', decide_eq_true_eq]
            exact ⟨Bool.eq_false_of_not_eq_true hq, hgreater⟩
          obtain ⟨s₁, hscan, hs₁⟩ := scan_plain string _ hs hplain
          exact ⟨s₁, hscan, _, _, hs₁⟩
  | some q =>
      rw [hopen] at hs
      obtain ⟨hq, hkind, hback⟩ := hs
      rw [quoteStep]
      split_ifs with ha
      · rw [ha]
        exact ⟨s.back, scan_close hkind hq _, hback⟩
      · exact ⟨s, scan_quoted hq hkind ha _, hq, hkind, hback⟩

/-- The text of a comment that does not end early. -/
theorem runs_inComment {c : Comment} (hearly : ¬ c.EndsEarly)
    (hstring : string = before ++ js "<!--" ++ (c.text ++ rest)) {u v : JsString}
    (htext : c.text = u ++ v) (hs : InComment before.length s (openQuote u)) :
    ∃ s', Runs string (before ++ js "<!--" ++ u) v s s' [] ∧
      InComment before.length s' (openQuote c.text) := by
  induction v generalizing u s with
  | nil =>
      rw [List.append_nil] at htext
      rw [htext]
      exact ⟨s, runs_nil, hs⟩
  | cons a v ih =>
      have hquote : openQuote (u ++ [a]) = quoteStep (openQuote u) a := by
        rw [openQuote, List.foldl_append]
        rfl
      obtain ⟨s₁, hscan, hs₁⟩ := scan_inComment hearly hstring htext hs
      rw [← hquote] at hs₁
      obtain ⟨s', hrun, hs'⟩ := ih (u := u ++ [a]) (by rw [htext, List.append_assoc]; rfl) hs₁
      rw [← List.append_assoc] at hrun
      exact ⟨s', runs_cons hscan hrun, hs'⟩

/-- The opening of a comment. -/
theorem runs_mark (string before : JsString) (hs : Outside s) :
    ∃ s', Runs string before (js "<!--") s s' [] ∧ ∃ k w, Inside before.length k w s' := by
  obtain ⟨s₁, hlt, hs₁⟩ := runs_lessThan string before hs
  have hplain : ∀ c ∈ js "!--", plainUnit c = true := by decide
  obtain ⟨s₂, hmark, hs₂⟩ := runs_plain string (before ++ ['<'.toNat]) hs₁ (by simp) hplain
  exact ⟨s₂, runs_append hlt hmark, _, _, hs₂⟩

theorem hyphen_plain : ∀ c ∈ js "--", plainUnit c = true := by decide

/-- A comment that ends at the first `>` behind hyphens leaves text behind. -/
theorem runs_early {u v : JsString} (hs : Outside s) (hu : ∀ a ∈ u, plainUnit a = true)
    (hsuffix : js "--" <:+ before ++ js "<!--" ++ u) (hv : '<'.toNat ∉ v)
    (hstring : string = before ++ js "<!--" ++ (u ++ '>'.toNat :: v) ++ rest) :
    ∃ s', Runs string before (js "<!--" ++ (u ++ '>'.toNat :: v)) s s' [] ∧ Outside s' := by
  obtain ⟨s₁, hmark, k, w, hs₁⟩ := runs_mark string before hs
  obtain ⟨s₂, hplain, hs₂⟩ := runs_plain string (before ++ js "<!--") hs₁ (by simp) hu
  have hsplit : string = before ++ js "<!--" ++ u ++ '>'.toNat :: (v ++ rest) := by
    rw [hstring]
    simp
  have hscan := scan_comment hs₂ hsplit
  rw [if_pos hsuffix] at hscan
  have hrest : Runs string (before ++ js "<!--" ++ u ++ ['>'.toNat]) v _ _ [] :=
    runs_text hs₂.back hv
  exact ⟨_, runs_append hmark (runs_append hplain (runs_cons hscan hrest)), hs₂.back⟩

/-- A clean comment is passed. -/
theorem runs_comment {c : Comment} (hc : c.Clean) (hs : Outside s)
    (hstring : string = before ++ (c.print ++ rest)) :
    ∃ s', Runs string before c.print s s' [] ∧ Outside s' := by
  rw [Comment.print, List.append_assoc, List.append_assoc, ← List.append_assoc] at hstring
  rw [Comment.Clean] at hc
  split_ifs at hc with hearly
  · obtain ⟨u, v, htext, hu, hsuffix⟩ : ∃ u v, c.text = u ++ '>'.toNat :: v ∧
        (∀ a ∈ u, plainUnit a = true) ∧ js "--" <:+ before ++ js "<!--" ++ u := by
      rcases hearly with ⟨v, h⟩ | ⟨v, h⟩
      · refine ⟨[], v, h.symm, by decide, before ++ js "<!", ?_⟩
        simp [js]
      · refine ⟨js "-", v, h.symm, by decide, before ++ js "<!-", ?_⟩
        simp [js]
    have hv : '<'.toNat ∉ v ++ js "-->" := by
      rw [htext] at hc
      intro hmem
      rcases List.mem_append.mp hmem with hmem | hmem
      · exact hc (List.mem_append_right _ (List.mem_cons_of_mem _ hmem))
      · exact absurd hmem (by decide)
    have hprint : c.print = js "<!--" ++ (u ++ '>'.toNat :: (v ++ js "-->")) := by
      rw [Comment.print, htext]
      simp
    rw [hprint]
    have hsplit : string = before ++ js "<!--" ++ (u ++ '>'.toNat :: (v ++ js "-->")) ++ rest := by
      rw [hstring, htext]
      simp
    exact runs_early hs hu hsuffix hv hsplit
  · obtain ⟨s₁, hmark, hs₁⟩ := runs_mark string before hs
    obtain ⟨s₂, htext, hs₂⟩ := runs_inComment hearly (u := []) hstring rfl hs₁
    rw [hc] at hs₂
    obtain ⟨k, w, hs₂⟩ := hs₂
    rw [List.append_nil] at htext
    obtain ⟨s₃, hhyphens, hs₃⟩ :=
      runs_plain string (before ++ js "<!--" ++ c.text) hs₂ (by simp) hyphen_plain
    have hsplit : string = before ++ js "<!--" ++ (c.text ++ js "--") ++ '>'.toNat :: rest := by
      rw [hstring]
      simp [js]
    have hscan := scan_comment hs₃ hsplit
    rw [← List.append_assoc, if_pos (List.suffix_append _ _)] at hscan
    refine ⟨_, ?_, hs₃.back⟩
    have hrun := runs_append hmark (runs_append htext (runs_append hhyphens (runs_single hscan)))
    have hprint : c.print = js "<!--" ++ (c.text ++ (js "--" ++ ['>'.toNat])) := by
      rw [Comment.print, List.append_assoc]
      rfl
    rw [hprint]
    exact hrun

/-- The declaration in front of a document. -/
def declaration (a : AttrString) : JsString := js "<?xml" ++ a.text ++ js "?>"

theorem runs_declaration (a : AttrString) (hs : Outside s)
    (hstring : string = before ++ (declaration a ++ rest)) :
    ∃ s', Runs string before (declaration a) s s' [] ∧ Outside s' := by
  obtain ⟨s₁, hlt, hs₁⟩ := runs_lessThan string before hs
  have hname : ∀ c ∈ js "?xml", plainUnit c = true := by decide
  obtain ⟨s₂, hplain, hs₂⟩ := runs_plain string (before ++ ['<'.toNat]) hs₁ (by simp) hname
  obtain ⟨s₃, hattrs, hs₃⟩ := runs_attrString string (before ++ ['<'.toNat] ++ js "?xml") a hs₂
    (by simp)
  have hmark : scan string (before ++ ['<'.toNat] ++ js "?xml" ++ a.text).length '?'.toNat s₃
      = .ok (s₃, none) := rfl
  have hsecond : string[before.length + 1]? = some '?'.toNat := by
    refine getElem?_at (x := before ++ ['<'.toNat]) (y := js "xml" ++ a.text ++ js "?>" ++ rest) ?_
      (by simp)
    rw [hstring]
    simp [declaration, js]
  have hi : (before ++ ['<'.toNat] ++ js "?xml" ++ a.text ++ ['?'.toNat]).length
      = before.length + a.text.length + 6 := by
    simp [js]
    omega
  have hprev : string[before.length + a.text.length + 6 - 1]? = some '?'.toNat := by
    refine getElem?_at (x := before ++ js "<?xml" ++ a.text) (y := '>'.toNat :: rest) ?_ ?_
    · rw [hstring]
      simp [declaration, js]
    · simp [js]
      omega
  have hgreater : scan string (before.length + a.text.length + 6) '>'.toNat s₃
      = .ok (s₃.back, none) := by
    show scanGreaterThan string _ s₃ = _
    rw [scanGreaterThan, if_neg (not_not.mpr hs₃.kind), hs₃.index, hsecond, if_neg (by decide),
      if_pos rfl, hprev, if_pos rfl]
  rw [← hi] at hgreater
  refine ⟨_, ?_, hs₃.back⟩
  have hrun := runs_append hlt (runs_append hplain (runs_append hattrs
    (runs_append (runs_single hmark) (runs_single hgreater))))
  have hprint : declaration a = ['<'.toNat] ++ (js "?xml" ++ (a.text ++ (['?'.toNat] ++ ['>'.toNat]))) := by
    simp [declaration, js]
  rw [hprint]
  exact hrun

end Comments

end Xml

end GenieAcs
