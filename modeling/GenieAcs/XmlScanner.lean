import GenieAcs.XmlBalance

/-!
# Runs of the scanner

Outside of tags nothing but `<` counts. Within a tag the scanner's state has a field for
the first colon and one for the first white space outside of quotes; each holds an offset
modulo 256, and 0 counts as none (`field`). What is in quotes is passed (`runs_quoted`).
-/

namespace GenieAcs

namespace Attribute

/-! ## Units of tags -/

/-- A unit of a tag outside of quotes. -/
def plainUnit (c : Nat) : Bool := !isQuote c && c ≠ '>'.toNat

/-- A unit of a name in a tag. -/
def tagUnit (c : Nat) : Bool :=
  nameUnit c && c ∉ ['<'.toNat, '>'.toNat, '/'.toNat, '!'.toNat, '?'.toNat]

/-- An attribute up to its value. -/
def Printed.unquoted (a : Printed) : JsString :=
  a.before ++ a.name ++ a.afterName ++ '='.toNat :: a.beforeValue

theorem plain_of_unit {c : Nat} (h : tagUnit c = true) : plainUnit c = true := by
  simp only [tagUnit, nameUnit, plainUnit, Bool.and_eq_true, Bool.not_eq_true', decide_eq_true_eq,
    List.mem_cons, not_or] at h ⊢
  exact ⟨h.1.1.2, h.2.2.1⟩

theorem plain_of_space {c : Nat} (h : xmlSpace c = true) : plainUnit c = true := by
  simp only [xmlSpace, plainUnit, isQuote, Bool.and_eq_true, Bool.not_eq_true', decide_eq_true_eq,
    decide_eq_false_iff_not, Char.reduceToNat] at h ⊢
  omega

theorem Printed.text_eq (a : Printed) :
    a.text = a.unquoted ++ (a.quote :: (a.value ++ [a.quote])) := by
  simp only [Printed.text, Printed.unquoted, List.append_assoc, List.cons_append]

theorem Printed.unquoted_plain (a : Printed) (h : ∀ c ∈ a.name, tagUnit c = true) :
    ∀ c ∈ a.unquoted, plainUnit c = true := by
  intro c hc
  simp only [Printed.unquoted, List.mem_append, List.mem_cons] at hc
  obtain ((hc | hc) | hc) | rfl | hc := hc
  · exact plain_of_space (a.before_space c hc)
  · exact plain_of_unit (h c hc)
  · exact plain_of_space (a.afterName_space c hc)
  · rfl
  · exact plain_of_space (a.beforeValue_space c hc)

end Attribute

namespace Xml

open Attribute

/-! ## Fields -/

theorem kindOf_eq (state : Nat) : kindOf state = state % 256 :=
  Nat.and_two_pow_sub_one_eq_mod state 8

theorem colonOf_eq (state : Nat) : colonOf state = state / 256 % 256 := by
  rw [colonOf, Nat.shiftRight_eq_div_pow]
  exact Nat.and_two_pow_sub_one_eq_mod _ 8

theorem spaceOf_eq (state : Nat) : spaceOf state = state / 65536 % 256 := by
  rw [spaceOf, Nat.shiftRight_eq_div_pow]
  exact Nat.and_two_pow_sub_one_eq_mod _ 8

theorem kindOf_xor (x y : Nat) : kindOf (x ^^^ y) = kindOf x ^^^ kindOf y :=
  Nat.and_xor_distrib_right

theorem colonOf_xor (x y : Nat) : colonOf (x ^^^ y) = colonOf x ^^^ colonOf y := by
  rw [colonOf, Nat.shiftRight_xor_distrib]
  exact Nat.and_xor_distrib_right

theorem spaceOf_xor (x y : Nat) : spaceOf (x ^^^ y) = spaceOf x ^^^ spaceOf y := by
  rw [spaceOf, Nat.shiftRight_xor_distrib]
  exact Nat.and_xor_distrib_right

theorem offset_colon (d : Nat) :
    kindOf ((d &&& 0xff) <<< 8) = 0 ∧ colonOf ((d &&& 0xff) <<< 8) = d % 256 ∧
      spaceOf ((d &&& 0xff) <<< 8) = 0 := by
  have hd : d &&& 0xff = d % 256 := Nat.and_two_pow_sub_one_eq_mod d 8
  rw [hd, Nat.shiftLeft_eq, kindOf_eq, colonOf_eq, spaceOf_eq]
  omega

theorem offset_space (d : Nat) :
    kindOf ((d &&& 0xff) <<< 16) = 0 ∧ colonOf ((d &&& 0xff) <<< 16) = 0 ∧
      spaceOf ((d &&& 0xff) <<< 16) = d % 256 := by
  have hd : d &&& 0xff = d % 256 := Nat.and_two_pow_sub_one_eq_mod d 8
  rw [hd, Nat.shiftLeft_eq, kindOf_eq, colonOf_eq, spaceOf_eq]
  omega

/-- A field that holds the offset of the first unit with a property, modulo 256, after the units
from offset `d` on. -/
def field (p : Nat → Bool) : Nat → Nat → JsString → Nat
  | k, _, [] => k
  | k, d, c :: u => field p (if p c = true ∧ k = 0 then d % 256 else k) (d + 1) u

def isColon (c : Nat) : Bool := c = ':'.toNat

section Fields

variable {p : Nat → Bool} {k d : Nat} {u v : JsString}

theorem field_append : field p k d (u ++ v) = field p (field p k d u) (d + u.length) v := by
  induction u generalizing k d with
  | nil => rfl
  | cons c u ih =>
      rw [List.cons_append, field, field, ih, List.length_cons]
      congr 1
      omega

theorem field_none (h : ∀ c ∈ u, p c = false) : field p k d u = k := by
  induction u generalizing k d with
  | nil => rfl
  | cons c u ih =>
      obtain ⟨hc, hu⟩ := List.forall_mem_cons.mp h
      rw [field, ih hu, hc, if_neg fun h => Bool.false_ne_true h.1]

/-- What is in the field stays. -/
theorem field_some (h : k ≠ 0) : field p k d u = k := by
  induction u generalizing k d with
  | nil => rfl
  | cons c u ih => rw [field, if_neg fun hk => h hk.2, ih h]

theorem field_lt (h : k < 256) : field p k d u < 256 := by
  induction u generalizing k d with
  | nil => exact h
  | cons c u ih =>
      rw [field]
      refine ih ?_
      split_ifs
      · exact Nat.mod_lt _ (by norm_num)
      · exact h

theorem field_le (h : k < d) : field p k d u < d + u.length := by
  induction u generalizing k d with
  | nil => exact h
  | cons c u ih =>
      have hstep : (if p c = true ∧ k = 0 then d % 256 else k) < d + 1 := by
        have hmod := Nat.mod_le d 256
        split_ifs <;> omega
      have hrest := ih hstep
      rw [field, List.length_cons]
      omega

end Fields

/-! ## Runs of the scanner -/

/-- The scanner goes over `u`, which follows `before`, and meets the tags. -/
def Runs (string before u : JsString) (s s' : Scanner) (tags : List Tag) : Prop :=
  ∀ rest, scanTags string before.length (u ++ rest) s
    = (tags ++ (scanTags string (before ++ u).length rest s').1,
        (scanTags string (before ++ u).length rest s').2)

section Runs

variable {string before u v : JsString} {c start k w : Nat} {s s₁ s' : Scanner}
  {tag : Option Tag} {tags tags' : List Tag}

theorem runs_nil : Runs string before [] s s [] := by
  intro rest
  rw [List.nil_append, List.append_nil, List.nil_append]

theorem runs_cons (h : scan string before.length c s = .ok (s₁, tag))
    (hu : Runs string (before ++ [c]) u s₁ s' tags) :
    Runs string before (c :: u) s s' (tag.toList ++ tags) := by
  intro rest
  have hlen : (before ++ [c]).length = before.length + 1 := by simp
  have hrest := hu rest
  rw [hlen, List.append_assoc, List.singleton_append] at hrest
  rw [List.cons_append, scanTags, h]
  dsimp only
  rw [hrest, List.append_assoc]

theorem runs_append (hu : Runs string before u s s₁ tags)
    (hv : Runs string (before ++ u) v s₁ s' tags') :
    Runs string before (u ++ v) s s' (tags ++ tags') := by
  intro rest
  rw [List.append_assoc, hu, hv, List.append_assoc, List.append_assoc]

theorem runs_single (h : scan string before.length c s = .ok (s', tag)) :
    Runs string before [c] s s' tag.toList := by
  have hrun := runs_cons h runs_nil
  rw [List.append_nil] at hrun
  exact hrun

theorem runs_same (h : ∀ i, ∀ c ∈ u, scan string i c s = .ok (s, none)) :
    Runs string before u s s [] := by
  induction u generalizing before with
  | nil => exact runs_nil
  | cons c u ih =>
      exact runs_cons (h _ c List.mem_cons_self)
        (ih fun i c hc => h i c (List.mem_cons_of_mem _ hc))

/-! ### Outside of tags -/

def Outside (s : Scanner) : Prop := s.state1 = 0 ∧ s.state2 = 0

theorem runs_text (hs : Outside s) (hu : '<'.toNat ∉ u) : Runs string before u s s [] := by
  refine runs_same fun i c hc => ?_
  have hkind : kindOf s.state1 = 0 := by
    rw [hs.1]
    rfl
  have hquote : ∀ q, q ≠ 0 → scanQuote q i s = s := by
    intro q hq
    rw [scanQuote, hkind, if_neg hq.symm, if_neg (by decide)]
  have hlt : c ≠ '<'.toNat := fun h => hu (h ▸ hc)
  have hcolon : scanColon i s = s := by
    rw [scanColon, hkind, if_neg fun h => absurd h.1 (by decide)]
  have hspace : scanSpace i s = s := by
    rw [scanSpace, hkind, if_neg fun h => absurd h.1 (by decide)]
  have hgreater : scanGreaterThan string i s = .ok (s, none) := by
    rw [scanGreaterThan, hkind, if_pos (by decide)]
  rw [scan, hquote _ (by decide), hquote _ (by decide), if_neg hlt, hcolon, hspace, hgreater]
  simp only [ite_self]

/-! ### Within tags -/

/-- In a tag that starts at `start`, with the fields. -/
structure Inside (start k w : Nat) (s : Scanner) : Prop where
  kind : kindOf s.state1 = lessThan
  colon : colonOf s.state1 = k
  space : spaceOf s.state1 = w
  index : s.state1Index = start
  below : s.state2 = 0

theorem Inside.back (h : Inside start k w s) : Outside s.back := ⟨h.below, rfl⟩

theorem runs_lessThan (string before : JsString) (hs : Outside s) :
    ∃ s', Runs string before ['<'.toNat] s s' [] ∧ Inside before.length 0 0 s' := by
  have hscan : scan string before.length '<'.toNat s
      = .ok (s.enter lessThan before.length, none) := by
    have hkind : kindOf s.state1 = 0 := by
      rw [hs.1]
      rfl
    show Except.ok (scanLessThan _ s, none) = _
    rw [scanLessThan, if_pos hkind]
  have hkind : kindOf lessThan = lessThan := rfl
  have hcolon : colonOf lessThan = 0 := rfl
  have hspace : spaceOf lessThan = 0 := rfl
  exact ⟨_, runs_single hscan, hkind, hcolon, hspace, rfl, hs.1⟩

theorem not_quote (h : isQuote c = false) : c ≠ '\''.toNat ∧ c ≠ '"'.toNat := by
  simp only [isQuote, decide_eq_false_iff_not, Char.reduceToNat] at h ⊢
  omega

theorem scan_plain (string : JsString) (i : Nat) (hs : Inside start k w s)
    (hc : plainUnit c = true) :
    ∃ s', scan string i c s = .ok (s', none) ∧
      Inside start (if isColon c = true ∧ k = 0 then (i - start) % 256 else k)
        (if xmlSpace c = true ∧ w = 0 then (i - start) % 256 else w) s' := by
  simp only [plainUnit, Bool.and_eq_true, Bool.not_eq_true', decide_eq_true_eq] at hc
  obtain ⟨hquote, hgreater⟩ := hc
  obtain ⟨hsingle, hdouble⟩ := not_quote hquote
  rw [scan, if_neg hsingle, if_neg hdouble]
  by_cases hlt : c = '<'.toNat
  · subst hlt
    rw [if_pos rfl, scanLessThan, hs.kind, if_neg (by decide)]
    exact ⟨s, rfl, hs⟩
  rw [if_neg hlt]
  by_cases hcolon : c = ':'.toNat
  · subst hcolon
    rw [if_pos rfl, scanColon, hs.kind, hs.colon]
    have hspace : xmlSpace ':'.toNat = false := rfl
    rw [hspace, if_neg fun h : false = true ∧ w = 0 => Bool.false_ne_true h.1]
    by_cases hk : k = 0
    · have hfield := hs.colon
      rw [hk] at hfield
      obtain ⟨hkind, hfirst, hother⟩ := offset_colon (i - start)
      rw [if_pos ⟨rfl, hk⟩, if_pos ⟨rfl, hk⟩, hs.index]
      refine ⟨_, rfl, ?_, ?_, ?_, rfl, hs.below⟩
      · rw [kindOf_xor, hkind, hs.kind]
        rfl
      · rw [colonOf_xor, hfirst, hfield, Nat.zero_xor]
      · rw [spaceOf_xor, hother, hs.space, Nat.xor_zero]
    · rw [if_neg fun h => hk h.2, if_neg fun h => hk h.2]
      exact ⟨s, rfl, hs⟩
  have hnoColon : isColon c = false := decide_eq_false hcolon
  rw [if_neg hcolon, hnoColon, if_neg fun h : false = true ∧ k = 0 => Bool.false_ne_true h.1]
  by_cases hspace : xmlSpace c = true
  · rw [if_pos hspace, scanSpace, hs.kind, hs.space]
    by_cases hw : w = 0
    · have hfield := hs.space
      rw [hw] at hfield
      obtain ⟨hkind, hother, hfirst⟩ := offset_space (i - start)
      rw [if_pos ⟨rfl, hw⟩, if_pos ⟨hspace, hw⟩, hs.index]
      refine ⟨_, rfl, ?_, ?_, ?_, rfl, hs.below⟩
      · rw [kindOf_xor, hkind, hs.kind]
        rfl
      · rw [colonOf_xor, hother, hs.colon, Nat.xor_zero]
      · rw [spaceOf_xor, hfirst, hfield, Nat.zero_xor]
    · rw [if_neg fun h => hw h.2, if_neg fun h => hw h.2]
      exact ⟨s, rfl, hs⟩
  · rw [if_neg hspace, if_neg hgreater, if_neg fun h => hspace h.1]
    exact ⟨s, rfl, hs⟩

theorem runs_plain (string before : JsString) (hs : Inside start k w s) (hstart : start ≤ before.length)
    (hu : ∀ c ∈ u, plainUnit c = true) :
    ∃ s', Runs string before u s s' [] ∧
      Inside start (field isColon k (before.length - start) u)
        (field xmlSpace w (before.length - start) u) s' := by
  induction u generalizing before k w s with
  | nil => exact ⟨s, runs_nil, hs⟩
  | cons c u ih =>
      obtain ⟨hc, hu⟩ := List.forall_mem_cons.mp hu
      obtain ⟨s₁, hscan, hs₁⟩ := scan_plain string before.length hs hc
      have hlen : (before ++ [c]).length = before.length + 1 := by simp
      obtain ⟨s', hrun, hs'⟩ := ih (before ++ [c]) hs₁ (by omega) hu
      refine ⟨s', runs_cons hscan hrun, ?_⟩
      rw [hlen, Nat.sub_add_comm hstart] at hs'
      exact hs'

def quoteState (q : Nat) : Nat := if q = '\''.toNat then singleQuote else doubleQuote

theorem scan_quote {q : Nat} (hq : isQuote q = true) (i : Nat) (s : Scanner) :
    scan string i q s = .ok (scanQuote (quoteState q) i s, none) := by
  by_cases hsingle : q = '\''.toNat
  · rw [scan, quoteState, if_pos hsingle, if_pos hsingle]
  · have hdouble : q = '"'.toNat := by
      simp only [isQuote, decide_eq_true_eq, Char.reduceToNat] at hq hsingle ⊢
      omega
    rw [scan, quoteState, if_neg hsingle, if_neg hsingle, if_pos hdouble]

theorem quoteState_ne (q : Nat) : quoteState q ≠ 0 ∧ quoteState q ≠ lessThan := by
  unfold quoteState
  split_ifs <;> decide

/-- Within quotes only the quote counts. -/
theorem scan_quoted {q : Nat} (hq : isQuote q = true) (hs : kindOf s.state1 = quoteState q)
    (hc : c ≠ q) (i : Nat) : scan string i c s = .ok (s, none) := by
  obtain ⟨hzero, hless⟩ := quoteState_ne q
  have hquote : isQuote c = true → quoteState q ≠ quoteState c := by
    intro hquote
    simp only [isQuote, decide_eq_true_eq] at hq hquote
    simp only [quoteState, Char.reduceToNat]
    split_ifs
    · omega
    · decide
    · decide
    · omega
  by_cases hquoted : isQuote c = true
  · rw [scan_quote hquoted, scanQuote, hs, if_neg (hquote hquoted), if_neg hless]
  · obtain ⟨hsingle, hdouble⟩ := not_quote (Bool.not_eq_true _ ▸ hquoted)
    have hlt : scanLessThan i s = s := by rw [scanLessThan, hs, if_neg hzero]
    have hcolon : scanColon i s = s := by rw [scanColon, hs, if_neg fun h => hless h.1]
    have hspace : scanSpace i s = s := by rw [scanSpace, hs, if_neg fun h => hless h.1]
    have hgreater : scanGreaterThan string i s = .ok (s, none) := by
      rw [scanGreaterThan, hs, if_pos hless]
    rw [scan, if_neg hsingle, if_neg hdouble, hlt, hcolon, hspace, hgreater]
    simp only [ite_self]

theorem scan_open (string : JsString) (i : Nat) {q : Nat} (hs : Inside start k w s)
    (hq : isQuote q = true) :
    ∃ s', scan string i q s = .ok (s', none) ∧ kindOf s'.state1 = quoteState q ∧
      Inside start k w s'.back := by
  refine ⟨s.enter (quoteState q) i, ?_, ?_, hs.kind, hs.colon, hs.space, hs.index, rfl⟩
  · rw [scan_quote hq, scanQuote, hs.kind, if_neg (quoteState_ne q).2.symm, if_pos rfl]
  · show kindOf (quoteState q) = _
    unfold quoteState
    split_ifs <;> rfl

theorem scan_close {q : Nat} (hs : kindOf s.state1 = quoteState q) (hq : isQuote q = true) (i : Nat) :
    scan string i q s = .ok (s.back, none) := by
  rw [scan_quote hq, scanQuote, if_pos hs]

/-- What is in quotes is passed. -/
theorem runs_quoted (string before : JsString) {q : Nat} (hs : Inside start k w s)
    (hq : isQuote q = true) (hu : q ∉ u) :
    ∃ s', Runs string before (q :: (u ++ [q])) s s' [] ∧ Inside start k w s' := by
  obtain ⟨s₁, hopen, hkind, hback⟩ := scan_open string before.length hs hq
  have hrun : Runs string (before ++ [q]) u s₁ s₁ [] :=
    runs_same fun i c hc => scan_quoted hq hkind (fun h => hu (h ▸ hc)) i
  exact ⟨_, runs_cons hopen (runs_append hrun (runs_single (scan_close hkind hq _))), hback⟩

end Runs

end Xml

end GenieAcs
