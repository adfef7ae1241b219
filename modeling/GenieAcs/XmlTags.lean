import GenieAcs.XmlScanner

/-!
# Printed tags

The scanner goes over a printed tag, and what is read of it are its name and its attribute
string just when their offsets fit in the fields of the state (`OpenTag.read_iff`).
-/

namespace GenieAcs

namespace Xml

open Attribute

/-! ## Printed tags -/

/-- Attributes, with white space in front of each and behind the last. -/
structure AttrString where
  attrs : List Printed
  after : JsString
  attrs_before : ∀ a ∈ attrs, a.before ≠ []
  attrs_unit : ∀ a ∈ attrs, ∀ c ∈ a.name, tagUnit c = true
  after_space : ∀ c ∈ after, xmlSpace c = true

def AttrString.text (a : AttrString) : JsString := a.attrs.flatMap Printed.text ++ a.after

structure OpenTag extends AttrString where
  name : JsString
  name_ne : name ≠ []
  name_unit : ∀ c ∈ name, tagUnit c = true
  name_colon : name.count ':'.toNat ≤ 1

/-- What stands between the angle brackets. -/
def OpenTag.inside (t : OpenTag) : JsString := t.name ++ t.text

def attrsField (p : Nat → Bool) : Nat → Nat → List Printed → Nat
  | k, _, [] => k
  | k, d, a :: attrs => attrsField p (field p k d a.unquoted) (d + a.text.length) attrs

/-- As `field`, over what is outside of quotes. -/
def AttrString.field (p : Nat → Bool) (k d : Nat) (a : AttrString) : Nat :=
  Xml.field p (attrsField p k d a.attrs) (d + (a.attrs.flatMap Printed.text).length) a.after

/-- The offset modulo 256 of the first unit with a property outside of quotes, counted from
the `<`; those at multiples of 256 do not count. -/
def OpenTag.first (t : OpenTag) (p : Nat → Bool) : Nat :=
  t.field p (Xml.field p 0 1 t.name) (1 + t.name.length)

def OpenTag.colon (t : OpenTag) : Nat := t.first isColon

def OpenTag.space (t : OpenTag) : Nat := t.first xmlSpace

def OpenTag.printOpening (t : OpenTag) : JsString := '<'.toNat :: (t.inside ++ ['>'.toNat])

def OpenTag.printSelfClosing (t : OpenTag) : JsString :=
  '<'.toNat :: (t.inside ++ ['/'.toNat, '>'.toNat])

def OpenTag.printClosing (t : OpenTag) : JsString :=
  '<'.toNat :: '/'.toNat :: (t.name ++ ['>'.toNat])

/-- What is read of a tag that ends before `bodyIndex`. -/
def OpenTag.read (t : OpenTag) (bodyIndex : Nat) : Header :=
  let name := if t.space = 0 then t.inside else t.inside.take (t.space - 1)
  let split := t.colon ≠ 0 ∧ (t.space = 0 ∨ t.colon < t.space)
  { name := name
    ns := if split then name.take (t.colon - 1) else []
    localName := if split then name.drop t.colon else name
    attrs := if t.space ≠ 0 then t.inside.drop t.space else []
    bodyIndex := bodyIndex }

section Tags

variable {string before rest : JsString} {start k w : Nat} {s : Scanner}

theorem runs_attrs (string before : JsString) {attrs : List Printed}
    (hattrs : ∀ a ∈ attrs, ∀ c ∈ a.name, tagUnit c = true) (hs : Inside start k w s) (hstart : start ≤ before.length) :
    ∃ s', Runs string before (attrs.flatMap Printed.text) s s' [] ∧
      Inside start (attrsField isColon k (before.length - start) attrs)
        (attrsField xmlSpace w (before.length - start) attrs) s' := by
  induction attrs generalizing before k w s with
  | nil => exact ⟨s, runs_nil, hs⟩
  | cons a attrs ih =>
      obtain ⟨ha, hattrs⟩ := List.forall_mem_cons.mp hattrs
      obtain ⟨s₁, hopen, hs₁⟩ := runs_plain string before hs hstart (a.unquoted_plain ha)
      obtain ⟨s₂, hvalue, hs₂⟩ :=
        runs_quoted string (before ++ a.unquoted) hs₁ a.quote_is a.value_quote
      have htext := runs_append hopen hvalue
      rw [← a.text_eq] at htext
      have hlen : (before ++ a.text).length = before.length + a.text.length := List.length_append
      obtain ⟨s', hrun, hs'⟩ := ih (before ++ a.text) hattrs hs₂ (by omega)
      refine ⟨s', runs_append htext hrun, ?_⟩
      rw [hlen, Nat.sub_add_comm hstart] at hs'
      exact hs'

theorem runs_attrString (string before : JsString) (a : AttrString) (hs : Inside start k w s)
    (hstart : start ≤ before.length) :
    ∃ s', Runs string before a.text s s' [] ∧
      Inside start (a.field isColon k (before.length - start))
        (a.field xmlSpace w (before.length - start)) s' := by
  obtain ⟨s₁, hrun, hs₁⟩ := runs_attrs string before a.attrs_unit hs hstart
  have hafter : ∀ c ∈ a.after, plainUnit c = true := fun c hc => plain_of_space (a.after_space c hc)
  have hlen : (before ++ a.attrs.flatMap Printed.text).length
      = before.length + (a.attrs.flatMap Printed.text).length := List.length_append
  obtain ⟨s₂, hrest, hs₂⟩ := runs_plain string (before ++ a.attrs.flatMap Printed.text) hs₁
    (by omega) hafter
  rw [hlen, Nat.sub_add_comm hstart] at hs₂
  exact ⟨s₂, runs_append hrun hrest, hs₂⟩

theorem runs_inside (string before : JsString) (t : OpenTag) (hs : Inside start 0 0 s)
    (hstart : before.length = start + 1) :
    ∃ s', Runs string before t.inside s s' [] ∧ Inside start t.colon t.space s' := by
  have hname : ∀ c ∈ t.name, plainUnit c = true := fun c hc => plain_of_unit (t.name_unit c hc)
  obtain ⟨s₁, hrun, hs₁⟩ := runs_plain string before hs (by omega) hname
  have hlen : (before ++ t.name).length = before.length + t.name.length := List.length_append
  obtain ⟨s₂, hrest, hs₂⟩ := runs_attrString string (before ++ t.name) t.toAttrString hs₁ (by omega)
  have hone : before.length - start = 1 := by omega
  have htwo : (before ++ t.name).length - start = 1 + t.name.length := by omega
  rw [hone, htwo] at hs₂
  exact ⟨s₂, runs_append hrun hrest, hs₂⟩

theorem attrsField_lt {p : Nat → Bool} {k d : Nat} {attrs : List Printed} (h : k < d) :
    attrsField p k d attrs < d + (attrs.flatMap Printed.text).length := by
  induction attrs generalizing k d with
  | nil => exact h
  | cons a attrs ih =>
      have hunquoted : a.unquoted.length ≤ a.text.length := by
        rw [a.text_eq, List.length_append]
        omega
      have hfield : field p k d a.unquoted < d + a.unquoted.length := Xml.field_le h
      have hrest := ih (show field p k d a.unquoted < d + a.text.length by omega)
      rw [attrsField, List.flatMap_cons, List.length_append]
      omega

theorem OpenTag.first_le (t : OpenTag) (p : Nat → Bool) : t.first p ≤ t.inside.length := by
  have hname : Xml.field p 0 1 t.name < 1 + t.name.length := Xml.field_le Nat.one_pos
  have hafter : t.first p < 1 + t.name.length + (t.attrs.flatMap Printed.text).length + t.after.length :=
    Xml.field_le (attrsField_lt hname)
  rw [OpenTag.inside, AttrString.text, List.length_append, List.length_append]
  omega

theorem headerOf_eq {i selfClosing : Nat} (t : OpenTag)
    (hstring : string = before ++ '<'.toNat :: (t.inside ++ rest))
    (hi : i - selfClosing = before.length + 1 + t.inside.length) :
    headerOf string before.length i t.colon t.space selfClosing = t.read (i + 1) := by
  have hspace : t.space ≤ t.inside.length := t.first_le xmlSpace
  have hall : slice string (before.length + 1) (i - selfClosing) = t.inside := by
    have hsplit : string = (before ++ ['<'.toNat]) ++ (t.inside ++ rest) := by
      rw [hstring]
      simp
    exact slice_eq hsplit (by simp) hi
  have hname : t.space ≠ 0 → slice string (before.length + 1) (before.length + t.space)
      = t.inside.take (t.space - 1) := by
    intro hne
    have hsplit : string = (before ++ ['<'.toNat])
        ++ (t.inside.take (t.space - 1) ++ (t.inside.drop (t.space - 1) ++ rest)) := by
      rw [← List.append_assoc (t.inside.take _), List.take_append_drop, hstring]
      simp
    refine slice_eq hsplit (by simp) ?_
    rw [List.length_take]
    omega
  have hattrs : slice string (before.length + t.space + 1) (i - selfClosing)
      = t.inside.drop t.space := by
    have hsplit : string = (before ++ '<'.toNat :: t.inside.take t.space)
        ++ (t.inside.drop t.space ++ rest) := by
      rw [List.append_assoc, List.cons_append, ← List.append_assoc (t.inside.take _),
        List.take_append_drop, hstring]
    refine slice_eq hsplit ?_ ?_
    · rw [List.length_append, List.length_cons, List.length_take]
      omega
    · rw [List.length_drop]
      omega
  rw [headerOf, OpenTag.read, hall, hattrs]
  by_cases hzero : t.space = 0
  · simp only [hzero, if_true]
  · rw [hname hzero]

theorem OpenTag.head (t : OpenTag) : ∃ c u, t.inside = c :: u ∧ tagUnit c = true := by
  obtain ⟨c, u, hname⟩ := List.exists_cons_of_ne_nil t.name_ne
  refine ⟨c, u ++ t.text, ?_, t.name_unit c (by rw [hname]; exact List.mem_cons_self)⟩
  rw [OpenTag.inside, hname, List.cons_append]

theorem attrs_last (attrs : List Printed) {c : Nat}
    (h : (attrs.flatMap Printed.text).getLast? = some c) : isQuote c = true := by
  rcases List.eq_nil_or_concat attrs with rfl | ⟨front, a, rfl⟩
  · cases h
  · have htext : (front.concat a).flatMap Printed.text
        = front.flatMap Printed.text ++ a.unquoted ++ a.quote :: a.value ++ [a.quote] := by
      rw [List.concat_eq_append, List.flatMap_append, List.flatMap_singleton, a.text_eq]
      simp only [List.append_assoc, List.cons_append]
    rw [htext, List.getLast?_concat] at h
    rw [← Option.some.inj h]
    exact a.quote_is

/-- A tag does not end with a slash of its own. -/
theorem OpenTag.last (t : OpenTag) :
    ∃ u c, t.inside = u ++ [c] ∧ c ≠ '/'.toNat := by
  have hne : t.inside ≠ [] := List.append_ne_nil_of_left_ne_nil t.name_ne _
  refine ⟨t.inside.dropLast, t.inside.getLast hne, (List.dropLast_append_getLast hne).symm, ?_⟩
  intro hslash
  have hlast := List.getLast?_eq_some_getLast hne
  rw [hslash, OpenTag.inside, AttrString.text, List.getLast?_append, List.getLast?_append] at hlast
  rcases Option.or_eq_some_iff.mp hlast with hlast | ⟨-, hlast⟩
  · rcases Option.or_eq_some_iff.mp hlast with hlast | ⟨-, hlast⟩
    · exact absurd (t.after_space _ (List.mem_of_getLast? hlast)) (by decide)
    · exact absurd (attrs_last t.attrs hlast) (by decide)
  · exact absurd (t.name_unit _ (List.mem_of_getLast? hlast)) (by decide)

/-- The `>` behind a tag. -/
theorem scan_greaterThan {i : Nat} (hs : Inside start k w s)
    (hmark : string[start + 1]? ≠ some '!'.toNat) (hquestion : string[start + 1]? ≠ some '?'.toNat) :
    scan string i '>'.toNat s = .ok (s.back, some (tagAt string i s)) := by
  show scanGreaterThan string i s = _
  rw [scanGreaterThan, if_neg (not_not.mpr hs.kind), hs.index, if_neg hmark, if_neg hquestion]

theorem getElem?_at {x y : JsString} {c i : Nat} (h : string = x ++ c :: y) (hi : i = x.length) :
    string[i]? = some c := by
  subst h hi
  rw [List.getElem?_append_right (Nat.le_refl _), Nat.sub_self]
  rfl

/-- The tag that starts with `<` and a name, at the `>` behind it. -/
theorem scan_tag (t : OpenTag) {i : Nat} (hs : Inside before.length t.colon t.space s)
    (hstring : string = before ++ '<'.toNat :: (t.inside ++ rest)) :
    scan string i '>'.toNat s = .ok (s.back,
      some (if string[i - 1]? = some '/'.toNat
        then .selfClosing (headerOf string before.length i t.colon t.space 1)
        else .opening (headerOf string before.length i t.colon t.space 0))) := by
  obtain ⟨c, u, hhead, hc⟩ := t.head
  have hsecond : string[before.length + 1]? = some c := by
    refine getElem?_at (x := before ++ ['<'.toNat]) (y := u ++ rest) ?_ (by simp)
    rw [hstring, hhead]
    simp
  have hunit : c ≠ '/'.toNat ∧ c ≠ '!'.toNat ∧ c ≠ '?'.toNat := by
    simp only [tagUnit, Bool.and_eq_true, decide_eq_true_eq, List.mem_cons, not_or] at hc
    exact ⟨hc.2.2.2.1, hc.2.2.2.2.1, hc.2.2.2.2.2.1⟩
  have hne : ∀ {a}, c ≠ a → string[before.length + 1]? ≠ some a := by
    intro a hca h
    rw [hsecond] at h
    exact hca (Option.some.inj h)
  rw [scan_greaterThan hs (hne hunit.2.1) (hne hunit.2.2), tagAt, hs.index, hs.colon, hs.space,
    if_neg (hne hunit.1)]

theorem runs_opening (t : OpenTag) (hs : Outside s)
    (h : string = before ++ (t.printOpening ++ rest)) :
    ∃ s', Runs string before t.printOpening s s'
        [.opening (t.read (before ++ t.printOpening).length)] ∧ Outside s' := by
  have hstring : string = before ++ '<'.toNat :: (t.inside ++ '>'.toNat :: rest) := by
    rw [h, OpenTag.printOpening, List.cons_append, List.append_assoc]
    rfl
  obtain ⟨s₁, hlt, hs₁⟩ := runs_lessThan string before hs
  obtain ⟨s₂, hinside, hs₂⟩ := runs_inside string (before ++ ['<'.toNat]) t hs₁ (by simp)
  obtain ⟨u, c, hlast, hc⟩ := t.last
  have hi : (before ++ ['<'.toNat] ++ t.inside).length = before.length + 1 + t.inside.length := by
    simp
    omega
  have hprev : string[(before ++ ['<'.toNat] ++ t.inside).length - 1]? ≠ some '/'.toNat := by
    have hat : string[(before ++ ['<'.toNat] ++ t.inside).length - 1]? = some c := by
      refine getElem?_at (x := before ++ '<'.toNat :: u) (y := '>'.toNat :: rest) ?_ ?_
      · rw [hstring, hlast]
        simp
      · rw [hlast]
        simp
    rw [hat]
    exact fun h => hc (Option.some.inj h)
  have hgreater := scan_tag t hs₂ hstring (i := (before ++ ['<'.toNat] ++ t.inside).length)
  rw [if_neg hprev, headerOf_eq t hstring (by omega)] at hgreater
  refine ⟨_, ?_, hs₂.back⟩
  have hrun := runs_append hlt (runs_append hinside (runs_single hgreater))
  rw [hi] at hrun
  have hindex : before.length + 1 + t.inside.length + 1 = (before ++ t.printOpening).length := by
    simp [OpenTag.printOpening]
    omega
  rw [hindex] at hrun
  exact hrun

theorem runs_selfClosing (t : OpenTag) (hs : Outside s)
    (h : string = before ++ (t.printSelfClosing ++ rest)) :
    ∃ s', Runs string before t.printSelfClosing s s'
        [.selfClosing (t.read (before.length + t.inside.length + 3))] ∧ Outside s' := by
  have hstring : string = before ++ '<'.toNat :: (t.inside ++ '/'.toNat :: '>'.toNat :: rest) := by
    rw [h, OpenTag.printSelfClosing, List.cons_append, List.append_assoc]
    rfl
  obtain ⟨s₁, hlt, hs₁⟩ := runs_lessThan string before hs
  obtain ⟨s₂, hinside, hs₂⟩ := runs_inside string (before ++ ['<'.toNat]) t hs₁ (by simp)
  have hslash : scan string (before ++ ['<'.toNat] ++ t.inside).length '/'.toNat s₂
      = .ok (s₂, none) := rfl
  have hi : (before ++ ['<'.toNat] ++ t.inside ++ ['/'.toNat]).length
      = before.length + t.inside.length + 2 := by
    simp
    omega
  have hprev : string[before.length + t.inside.length + 2 - 1]? = some '/'.toNat := by
    refine getElem?_at (x := before ++ '<'.toNat :: t.inside) (y := '>'.toNat :: rest) ?_ ?_
    · rw [hstring]
      simp
    · simp
      omega
  have hgreater := scan_tag t hs₂ hstring (i := before.length + t.inside.length + 2)
  rw [if_pos hprev, headerOf_eq t hstring (by omega), ← hi] at hgreater
  refine ⟨_, ?_, hs₂.back⟩
  have hrun := runs_append hlt
    (runs_append hinside (runs_append (runs_single hslash) (runs_single hgreater)))
  rw [hi] at hrun
  exact hrun

theorem runs_closing (t : OpenTag) (hs : Outside s)
    (h : string = before ++ (t.printClosing ++ rest)) :
    ∃ s', Runs string before t.printClosing s s'
        [.closing t.name before.length (before.length + t.name.length + 2)] ∧ Outside s' := by
  have hstring : string = before ++ '<'.toNat :: '/'.toNat :: (t.name ++ '>'.toNat :: rest) := by
    rw [h, OpenTag.printClosing, List.cons_append, List.cons_append, List.append_assoc]
    rfl
  obtain ⟨s₁, hlt, hs₁⟩ := runs_lessThan string before hs
  have hunits : ∀ c ∈ '/'.toNat :: t.name, plainUnit c = true :=
    List.forall_mem_cons.mpr ⟨rfl, fun c hc => plain_of_unit (t.name_unit c hc)⟩
  obtain ⟨s₂, hplain, hs₂⟩ := runs_plain string (before ++ ['<'.toNat]) hs₁ (by simp) hunits
  have hspace : ∀ c ∈ '/'.toNat :: t.name, xmlSpace c = false := by
    refine List.forall_mem_cons.mpr ⟨rfl, fun c hc => ?_⟩
    have hunit := t.name_unit c hc
    simp only [tagUnit, nameUnit, Bool.and_eq_true, Bool.not_eq_true'] at hunit
    exact hunit.1.1.1
  rw [field_none hspace] at hs₂
  have hi : (before ++ ['<'.toNat] ++ '/'.toNat :: t.name).length
      = before.length + t.name.length + 2 := by
    simp
    omega
  have hsecond : string[before.length + 1]? = some '/'.toNat := by
    refine getElem?_at (x := before ++ ['<'.toNat]) (y := t.name ++ '>'.toNat :: rest) ?_ (by simp)
    rw [hstring]
    simp
  have hslice : slice string (before.length + 2) (before.length + t.name.length + 2) = t.name := by
    refine slice_eq (x := before ++ ['<'.toNat, '/'.toNat]) (y := '>'.toNat :: rest) ?_ (by simp)
      (by omega)
    rw [hstring]
    simp
  have hgreater := scan_greaterThan (i := before.length + t.name.length + 2) hs₂
    (by rw [hsecond]; decide) (by rw [hsecond]; decide)
  rw [tagAt, hs₂.index, hs₂.space, if_pos hsecond, if_pos rfl, hslice, ← hi] at hgreater
  refine ⟨_, ?_, hs₂.back⟩
  have hrun := runs_append hlt (runs_append hplain (runs_single hgreater))
  rw [hi] at hrun
  exact hrun

end Tags

/-! ## What is read of a tag -/

/-- The offsets of a tag fit in the fields: its name ends before offset 256 if anything follows,
its colon comes before offset 256, and no colon of an attribute counts as one in the name. -/
structure OpenTag.Fits (t : OpenTag) : Prop where
  space : t.text ≠ [] → t.name.length ≤ 254
  colon : ':'.toNat ∈ t.name → (splitName t.name).1.length ≤ 254
  other : ':'.toNat ∉ t.name → t.colon = 0 ∨ t.name.length < t.colon

/-- The header has what was printed, but for white space around the attribute string. -/
structure OpenTag.Reads (t : OpenTag) (h : Header) : Prop where
  name : h.name = t.name
  ns : h.ns = (splitName t.name).1
  localName : h.localName = (splitName t.name).2
  attrs : trim h.attrs = trim t.text

section Reading

variable {p : Nat → Bool} {k d : Nat}

theorem attrsField_some (h : k ≠ 0) (attrs : List Printed) : attrsField p k d attrs = k := by
  induction attrs generalizing d with
  | nil => rfl
  | cons a attrs ih => rw [attrsField, field_some h, ih]

theorem AttrString.field_some (h : k ≠ 0) (a : AttrString) : a.field p k d = k := by
  rw [AttrString.field, attrsField_some h, Xml.field_some h]

theorem attrsField_lt_word (h : k < 256) (attrs : List Printed) : attrsField p k d attrs < 256 := by
  induction attrs generalizing k d with
  | nil => exact h
  | cons a attrs ih => exact ih (field_lt h)

theorem OpenTag.first_lt (t : OpenTag) (p : Nat → Bool) : t.first p < 256 :=
  field_lt (attrsField_lt_word (field_lt (by norm_num)) t.attrs)

theorem AttrString.eq_nil {a : AttrString} (h : a.text = []) : a.attrs = [] ∧ a.after = [] := by
  rw [AttrString.text, List.append_eq_nil_iff] at h
  refine ⟨?_, h.2⟩
  cases hattrs : a.attrs with
  | nil => rfl
  | cons b attrs =>
      rw [hattrs, List.flatMap_cons, b.text_eq] at h
      simp at h

/-- White space stands right behind the name if anything does. -/
theorem AttrString.head {a : AttrString} (h : a.text ≠ []) :
    ∃ c u, a.text = c :: u ∧ xmlSpace c = true ∧ ∀ d, d % 256 ≠ 0 → a.field xmlSpace 0 d = d % 256 := by
  have hfield : ∀ {c u d}, xmlSpace c = true → d % 256 ≠ 0 → Xml.field xmlSpace 0 d (c :: u) = d % 256 := by
    intro c u d hc hd
    rw [Xml.field, if_pos ⟨hc, rfl⟩, Xml.field_some hd]
  cases hattrs : a.attrs with
  | nil =>
      cases hafter : a.after with
      | nil => exact absurd (by rw [AttrString.text, hattrs, hafter]; rfl) h
      | cons c u =>
          have hc : xmlSpace c = true := a.after_space c (by rw [hafter]; exact List.mem_cons_self)
          refine ⟨c, u, by rw [AttrString.text, hattrs, hafter]; rfl, hc, fun d hd => ?_⟩
          rw [AttrString.field, hattrs, hafter]
          exact hfield hc hd
  | cons b attrs =>
      have hb : b ∈ a.attrs := by
        rw [hattrs]
        exact List.mem_cons_self
      obtain ⟨c, u, hbefore⟩ := List.exists_cons_of_ne_nil (a.attrs_before b hb)
      have hc : xmlSpace c = true := b.before_space c (by rw [hbefore]; exact List.mem_cons_self)
      refine ⟨c, u ++ (b.name ++ b.afterName ++ '='.toNat :: b.beforeValue
          ++ b.quote :: (b.value ++ [b.quote]) ++ attrs.flatMap Printed.text ++ a.after), ?_, hc,
        fun d hd => ?_⟩
      · rw [AttrString.text, hattrs, List.flatMap_cons, b.text_eq, Printed.unquoted, hbefore]
        simp
      · have hunquoted : Xml.field xmlSpace 0 d b.unquoted = d % 256 := by
          rw [Printed.unquoted, hbefore]
          exact hfield hc hd
        rw [AttrString.field, hattrs, attrsField, hunquoted, attrsField_some hd, Xml.field_some hd]

theorem OpenTag.name_space (t : OpenTag) : Xml.field xmlSpace 0 1 t.name = 0 := by
  refine field_none fun c hc => ?_
  have hunit := t.name_unit c hc
  simp only [tagUnit, nameUnit, Bool.and_eq_true, Bool.not_eq_true'] at hunit
  exact hunit.1.1.1

/-- The field for the colon behind the name, which has one or none. -/
theorem OpenTag.name_field (t : OpenTag) :
    (':'.toNat ∉ t.name ∧ splitName t.name = ([], t.name) ∧ Xml.field isColon 0 1 t.name = 0) ∨
      ∃ pfx loc, t.name = pfx ++ ':'.toNat :: loc ∧ ':'.toNat ∈ t.name ∧
        splitName t.name = (pfx, loc) ∧ Xml.field isColon 0 1 t.name = (pfx.length + 1) % 256 := by
  have hnone : ∀ {u : JsString} {k d}, ':'.toNat ∉ u → Xml.field isColon k d u = k :=
    fun hu => field_none fun c hc => decide_eq_false fun h => hu (h ▸ hc)
  rcases splitName_cases t.name_colon with ⟨hmem, hsplit⟩ | ⟨pfx, loc, hname, hpfx, hloc, hsplit⟩
  · exact Or.inl ⟨hmem, hsplit, hnone hmem⟩
  · refine Or.inr ⟨pfx, loc, hname, ?_, hsplit, ?_⟩
    · rw [hname]
      exact List.mem_append_right _ List.mem_cons_self
    · rw [hname, field_append, hnone hpfx, Xml.field, if_pos ⟨rfl, rfl⟩, hnone hloc, Nat.add_comm]

/-- The split at the colon field. -/
theorem OpenTag.split_iff (t : OpenTag) :
    ((if t.colon ≠ 0 ∧ t.colon ≤ t.name.length then t.name.take (t.colon - 1) else [])
        = (splitName t.name).1 ∧
      (if t.colon ≠ 0 ∧ t.colon ≤ t.name.length then t.name.drop t.colon else t.name)
        = (splitName t.name).2)
      ↔ (':'.toNat ∈ t.name → (splitName t.name).1.length ≤ 254) ∧
        (':'.toNat ∉ t.name → t.colon = 0 ∨ t.name.length < t.colon) := by
  have hpos : 0 < t.name.length := List.length_pos_iff.mpr t.name_ne
  obtain ⟨hmem, hsplit, -⟩ | ⟨pfx, loc, hname, hmem, hsplit, hfield⟩ := t.name_field
  · rw [hsplit]
    by_cases hcolon : t.colon ≠ 0 ∧ t.colon ≤ t.name.length
    · rw [if_pos hcolon, if_pos hcolon]
      refine iff_of_false (fun h => ?_) fun h => ?_
      · have hlen : (t.name.drop t.colon).length = t.name.length := congrArg List.length h.2
        rw [List.length_drop] at hlen
        omega
      · have hother := h.2 hmem
        omega
    · rw [if_neg hcolon, if_neg hcolon]
      refine iff_of_true ⟨rfl, rfl⟩ ⟨fun h => absurd h hmem, fun _ => ?_⟩
      omega
  · have hlen : t.name.length = pfx.length + loc.length + 1 := by
      rw [hname, List.length_append, List.length_cons]
      omega
    rw [hsplit]
    by_cases hshort : pfx.length ≤ 254
    · have hcolon : t.colon = pfx.length + 1 := by
        have hmod : (pfx.length + 1) % 256 = pfx.length + 1 := Nat.mod_eq_of_lt (by omega)
        rw [OpenTag.colon, OpenTag.first, hfield, hmod, AttrString.field_some (Nat.succ_ne_zero _)]
      have htake : t.name.take pfx.length = pfx := by rw [hname, List.take_left]
      have hdrop : t.name.drop (pfx.length + 1) = loc := by
        rw [hname, ← List.drop_drop, List.drop_left]
        rfl
      rw [hcolon, if_pos ⟨Nat.succ_ne_zero _, by omega⟩, if_pos ⟨Nat.succ_ne_zero _, by omega⟩,
        Nat.add_sub_cancel, htake, hdrop]
      exact iff_of_true ⟨rfl, rfl⟩ ⟨fun _ => hshort, fun h => absurd hmem h⟩
    · refine iff_of_false (fun h => ?_) fun h => hshort (h.1 hmem)
      have hlt : t.colon < 256 := t.first_lt isColon
      have hlocal : _ = loc := h.2
      have hlens := congrArg List.length hlocal
      split_ifs at hlens
      · rw [List.length_drop] at hlens
        omega
      · omega

theorem OpenTag.first_nil (t : OpenTag) (h : t.text = []) (p : Nat → Bool) :
    t.first p = Xml.field p 0 1 t.name := by
  obtain ⟨hattrs, hafter⟩ := AttrString.eq_nil h
  rw [OpenTag.first, AttrString.field, hattrs, hafter]
  rfl

/-- What is read if nothing but a short name is followed by anything. -/
theorem OpenTag.read_eq (t : OpenTag) (hshort : t.text ≠ [] → t.name.length ≤ 254)
    (bodyIndex : Nat) :
    ∃ attrs, trim attrs = trim t.text ∧ t.read bodyIndex = ⟨t.name,
      if t.colon ≠ 0 ∧ t.colon ≤ t.name.length then t.name.take (t.colon - 1) else [],
      if t.colon ≠ 0 ∧ t.colon ≤ t.name.length then t.name.drop t.colon else t.name, attrs,
      bodyIndex⟩ := by
  have hcolon : t.colon ≤ t.inside.length := t.first_le isColon
  by_cases htext : t.text = []
  · have hspace : t.space = 0 := (t.first_nil htext xmlSpace).trans t.name_space
    have hinside : t.inside = t.name := by rw [OpenTag.inside, htext, List.append_nil]
    rw [hinside] at hcolon
    have hcond : (t.colon ≠ 0 ∧ (t.space = 0 ∨ t.colon < t.space))
        ↔ (t.colon ≠ 0 ∧ t.colon ≤ t.name.length) := by omega
    refine ⟨[], by rw [htext], ?_⟩
    rw [OpenTag.read, hinside]
    simp only [hcond]
    rw [hspace]
    rfl
  · obtain ⟨c, u, hhead, hc, hfield⟩ := AttrString.head htext
    have hlen := hshort htext
    have hspace : t.space = 1 + t.name.length := by
      have hmod : (1 + t.name.length) % 256 = 1 + t.name.length := Nat.mod_eq_of_lt (by omega)
      rw [OpenTag.space, OpenTag.first, t.name_space, hfield _ (by omega), hmod]
    have hcond : (t.colon ≠ 0 ∧ (t.space = 0 ∨ t.colon < t.space))
        ↔ (t.colon ≠ 0 ∧ t.colon ≤ t.name.length) := by omega
    have htake : t.inside.take (t.space - 1) = t.name := by
      rw [hspace, Nat.add_sub_cancel_left, OpenTag.inside, List.take_left]
    have hdrop : t.inside.drop t.space = u := by
      rw [hspace, Nat.add_comm, ← List.drop_drop, OpenTag.inside, List.drop_left, hhead]
      rfl
    refine ⟨u, ?_, ?_⟩
    · rw [hhead, trim, trim, List.dropWhile_cons_of_pos (trimChar_of_space hc)]
    · rw [OpenTag.read, htake, hdrop]
      simp only [hcond]
      rw [if_neg (show t.space ≠ 0 by omega), if_pos (show t.space ≠ 0 by omega)]

/-- A tag is read as it was printed just when its offsets fit in the fields. -/
theorem OpenTag.read_iff (t : OpenTag) (bodyIndex : Nat) : t.Reads (t.read bodyIndex) ↔ t.Fits := by
  by_cases hshort : t.text ≠ [] → t.name.length ≤ 254
  · obtain ⟨attrs, hattrs, hread⟩ := t.read_eq hshort bodyIndex
    have hsplit := t.split_iff
    rw [hread]
    refine ⟨fun h => ?_, fun h => ?_⟩
    · obtain ⟨hcolon, hother⟩ := hsplit.mp ⟨h.ns, h.localName⟩
      exact ⟨hshort, hcolon, hother⟩
    · obtain ⟨hns, hlocal⟩ := hsplit.mpr ⟨h.colon, h.other⟩
      exact ⟨rfl, hns, hlocal, hattrs⟩
  · refine iff_of_false (fun h => ?_) fun h => hshort h.space
    obtain ⟨htext, hlong⟩ := Classical.not_imp.mp hshort
    have hpos := List.length_pos_iff.mpr htext
    have hlt : t.space < 256 := t.first_lt xmlSpace
    have hname := congrArg List.length h.name
    rw [OpenTag.read] at hname
    dsimp only at hname
    split_ifs at hname
    · rw [OpenTag.inside, List.length_append] at hname
      omega
    · rw [List.length_take] at hname
      omega

end Reading

end Xml

end GenieAcs
