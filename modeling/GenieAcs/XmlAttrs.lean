import GenieAcs.Lib.Results
import GenieAcs.Lib.Trim
import GenieAcs.PathText

/-!
# Attribute strings

`parseAttrs` goes over a string once, with the quote it is in, where the name or value
it is in starts, and the last colon in a name. A quote of the other kind within a value
starts a value of its own, so no value it returns has a quote in it. What it returns is
what was printed just when no value has, no part of a name is trimmed, and no name
starts with a colon right where the attribute before it ends (`parseAttrs_iff`).
-/

namespace GenieAcs

/-- What the parser throws, with the index in the message; `typeError` is the error of
the engine at a property of `undefined`. -/
inductive XmlError where
  | unexpectedCharacter (i : Nat)
  | attributeMustHaveValue (i : Nat)
  | unexpectedString (i : Nat)
  | unmatchedClosingTag (i : Nat)
  | cdataNotSupported (i : Nat)
  | unclosedToken (i : Nat)
  | unclosedXmlElement (i : Nat)
  | typeError
  deriving DecidableEq

/-- `String.prototype.slice`. -/
def slice (s : JsString) (i j : Nat) : JsString := (s.take j).drop i

structure Attribute where
  name : JsString
  ns : JsString
  localName : JsString
  value : JsString
  deriving DecidableEq

namespace Attribute

/-! ## Parsing -/

/-- The variables of the loop. -/
structure Scan where
  attrs : List Attribute
  state : Nat
  name : JsString
  ns : JsString
  localName : JsString
  idx : Nat
  colonIdx : Nat

def isQuote (c : Nat) : Bool := c = 39 ∨ c = 34

def scanQuote (string : JsString) (i c : Nat) (s : Scan) : Scan :=
  if s.state = c then
    if s.name ≠ [] then
      { s with
        state := 0
        attrs := s.attrs ++ [⟨s.name, s.ns, s.localName, slice string (s.idx + 1) i⟩]
        name := []
        idx := i + 1 }
    else { s with state := 0 }
  else { s with state := c, idx := i }

def scanColon (i : Nat) (s : Scan) : Scan :=
  if s.state ≠ 0 then s else if s.colonIdx ≤ s.idx then { s with colonIdx := i } else s

def scanEqual (string : JsString) (i : Nat) (s : Scan) : Except XmlError Scan :=
  if s.state ≠ 0 then .ok s
  else if s.name ≠ [] then .error (.unexpectedCharacter i)
  else
    let name := trim (slice string s.idx i)
    if s.idx < s.colonIdx then
      .ok { s with
        name := name
        ns := trim (slice string s.idx s.colonIdx)
        localName := trim (slice string (s.colonIdx + 1) i) }
    else .ok { s with name := name, ns := [], localName := name }

/-- One round of the loop. -/
def scan (string : JsString) (i c : Nat) (s : Scan) : Except XmlError Scan :=
  if isQuote c then .ok (scanQuote string i c s)
  else if c = ':'.toNat then .ok (scanColon i s)
  else if c = '='.toNat then scanEqual string i s
  else .ok s

/-- The loop from index `i` on, over the rest of the string. -/
def scanFrom (string : JsString) : Nat → JsString → Scan → Except XmlError Scan
  | _, [], s => .ok s
  | i, c :: cs, s => (scan string i c s).bind (scanFrom string (i + 1) cs)

def parseAttrs (string : JsString) : Except XmlError (List Attribute) := do
  let s ← scanFrom string 0 string ⟨[], 0, [], [], [], 0, 0⟩
  if s.name ≠ [] then .error (.attributeMustHaveValue s.idx)
  else
    let tail := string.drop s.idx
    if trim tail ≠ [] then .error (.unexpectedString (string.length - tail.length))
    else .ok s.attrs

/-! ## Printing -/

/-- The white space of XML. -/
def xmlSpace (c : Nat) : Bool := c = 32 ∨ c = 9 ∨ c = 13 ∨ c = 10

/-- The units of a name, and more: neither white space nor quotes nor `=`. -/
def nameUnit (c : Nat) : Bool := !xmlSpace c && !isQuote c && c ≠ '='.toNat

/-- An attribute with the white space it is printed with, and its quotes. -/
structure Printed where
  before : JsString
  name : JsString
  afterName : JsString
  beforeValue : JsString
  quote : Nat
  value : JsString
  before_space : ∀ c ∈ before, xmlSpace c = true
  name_ne : name ≠ []
  name_unit : ∀ c ∈ name, nameUnit c = true
  name_colon : name.count ':'.toNat ≤ 1
  afterName_space : ∀ c ∈ afterName, xmlSpace c = true
  beforeValue_space : ∀ c ∈ beforeValue, xmlSpace c = true
  quote_is : isQuote quote = true
  value_quote : quote ∉ value

def Printed.text (a : Printed) : JsString :=
  a.before ++ a.name ++ a.afterName ++ '='.toNat :: (a.beforeValue ++ a.quote :: (a.value ++ [a.quote]))

/-- A name split at its colon. -/
def splitName (name : JsString) : JsString × JsString :=
  if ':'.toNat ∈ name then
    (name.takeWhile (· ≠ ':'.toNat), (name.dropWhile (· ≠ ':'.toNat)).tail)
  else ([], name)

def Printed.attribute (a : Printed) : Attribute :=
  ⟨a.name, (splitName a.name).1, (splitName a.name).2, a.value⟩

/-! ## What is read of a printed attribute -/

open Trim

/-- A colon right where the last attribute ended does not count. -/
def Printed.read (a : Printed) : Attribute :=
  if a.before = [] ∧ a.name.head? = some ':'.toNat then ⟨a.name, [], a.name, a.value⟩
  else a.attribute

/-- The other quote is not in the value either, and no part of the name is trimmed. -/
structure Printed.Clean (a : Printed) : Prop where
  value : ∀ c ∈ a.value, isQuote c = false
  name : Trimmed trimChar a.name
  ns : Trimmed trimChar (splitName a.name).1
  localName : Trimmed trimChar (splitName a.name).2

theorem trimChar_of_space {c : Nat} (h : xmlSpace c = true) : trimChar c = true := by
  rw [xmlSpace, decide_eq_true_eq] at h
  rw [trimChar, decide_eq_true_eq]
  omega

theorem trim_space {u s v : JsString} (hu : ∀ c ∈ u, xmlSpace c = true)
    (hv : ∀ c ∈ v, xmlSpace c = true) (hs : Trimmed trimChar s) : trim (u ++ s ++ v) = s :=
  trim_pad (fun c hc => trimChar_of_space (hu c hc)) (fun c hc => trimChar_of_space (hv c hc)) hs

theorem slice_eq {string x u y : JsString} {i j : Nat} (h : string = x ++ (u ++ y))
    (hi : i = x.length) (hj : j = i + u.length) : slice string i j = u := by
  subst h hi hj
  rw [slice, ← List.append_assoc, ← List.length_append, List.take_left, List.drop_left]

/-- A unit that changes nothing outside of quotes. -/
def Neutral (c : Nat) : Prop := isQuote c = false ∧ c ≠ ':'.toNat ∧ c ≠ '='.toNat

theorem neutral_of_space {c : Nat} (h : xmlSpace c = true) : Neutral c := by
  rw [xmlSpace, decide_eq_true_eq] at h
  simp only [Neutral, isQuote, decide_eq_false_iff_not, Char.reduceToNat]
  omega

theorem neutral_of_unit {c : Nat} (h : nameUnit c = true) (hc : c ≠ ':'.toNat) : Neutral c := by
  simp only [nameUnit, Bool.and_eq_true, Bool.not_eq_true', decide_eq_true_eq] at h
  exact ⟨h.1.2, hc, h.2⟩

section Run

variable {string rest u : JsString} {i c : Nat} {s : Scan}

theorem scanFrom_cons {s' : Scan} (h : scan string i c s = .ok s') :
    scanFrom string i (c :: rest) s = scanFrom string (i + 1) rest s' := by
  rw [scanFrom, h]
  rfl

theorem scanFrom_same (h : ∀ i, ∀ c ∈ u, scan string i c s = .ok s) :
    scanFrom string i (u ++ rest) s = scanFrom string (i + u.length) rest s := by
  induction u generalizing i with
  | nil => rfl
  | cons c u ih =>
      rw [List.cons_append, scanFrom_cons (h i c (List.mem_cons_self ..)),
        ih fun i c hc => h i c (List.mem_cons_of_mem _ hc), List.length_cons]
      congr 1
      omega

theorem scanFrom_neutral (hu : ∀ c ∈ u, Neutral c) :
    scanFrom string i (u ++ rest) s = scanFrom string (i + u.length) rest s := by
  refine scanFrom_same fun i c hc => ?_
  obtain ⟨hquote, hcolon, hequal⟩ := hu c hc
  rw [scan, hquote, if_neg Bool.false_ne_true, if_neg hcolon, if_neg hequal]

theorem scanFrom_quoted (hs : s.state ≠ 0) (hu : ∀ c ∈ u, isQuote c = false) :
    scanFrom string i (u ++ rest) s = scanFrom string (i + u.length) rest s := by
  refine scanFrom_same fun i c hc => ?_
  rw [scan, hu c hc, if_neg Bool.false_ne_true]
  split_ifs
  · rw [scanColon, if_pos hs]
  · rw [scanEqual, if_pos hs]
  · rfl

/-- From the equal sign on. -/
theorem scanFrom_value (a : Printed) (hvalue : ∀ c ∈ a.value, isQuote c = false)
    (hs : s.state = 0) (hname : s.name ≠ []) {done : JsString}
    (hstring : string = done ++ (a.beforeValue ++ a.quote :: (a.value ++ a.quote :: rest)))
    (hi : i = done.length) :
    scanFrom string i (a.beforeValue ++ a.quote :: (a.value ++ a.quote :: rest)) s
      = scanFrom string (i + (a.beforeValue.length + a.value.length + 2)) rest
        { s with
          attrs := s.attrs ++ [⟨s.name, s.ns, s.localName, a.value⟩]
          state := 0
          name := []
          idx := i + (a.beforeValue.length + a.value.length + 2) } := by
  have hquote : a.quote ≠ 0 := by
    intro h
    have hq := a.quote_is
    rw [h] at hq
    exact absurd hq (by decide)
  have hspace : ∀ c ∈ a.beforeValue, Neutral c := fun c hc =>
    neutral_of_space (a.beforeValue_space c hc)
  have hopen : scan string (i + a.beforeValue.length) a.quote s
      = .ok { s with state := a.quote, idx := i + a.beforeValue.length } := by
    rw [scan, if_pos a.quote_is, scanQuote, if_neg (by rw [hs]; exact hquote.symm)]
  have hslice : slice string (i + a.beforeValue.length + 1)
      (i + a.beforeValue.length + 1 + a.value.length) = a.value := by
    have hsplit : string = (done ++ a.beforeValue ++ [a.quote]) ++ (a.value ++ a.quote :: rest) := by
      rw [hstring]
      simp
    refine slice_eq hsplit ?_ rfl
    rw [hi]
    simp
    omega
  have hlen : i + a.beforeValue.length + 1 + a.value.length + 1
      = i + (a.beforeValue.length + a.value.length + 2) := by omega
  rw [scanFrom_neutral hspace, scanFrom_cons hopen, scanFrom_quoted hquote hvalue, ← hlen]
  refine scanFrom_cons ?_
  rw [scan, if_pos a.quote_is, scanQuote, if_pos rfl, if_pos hname, hslice]

/-- The variables between two attributes, at index `i`. -/
structure Between (i : Nat) (s : Scan) : Prop where
  state : s.state = 0
  name : s.name = []
  idx : s.idx = i
  colonIdx : s.colonIdx ≤ i

/-- A name splits into two parts without colons, or is one. -/
theorem splitName_cases {name : JsString} (h : name.count ':'.toNat ≤ 1) :
    (':'.toNat ∉ name ∧ splitName name = ([], name))
      ∨ ∃ pfx loc, name = pfx ++ ':'.toNat :: loc ∧ ':'.toNat ∉ pfx ∧ ':'.toNat ∉ loc
        ∧ splitName name = (pfx, loc) := by
  by_cases hmem : ':'.toNat ∈ name
  · obtain ⟨pfx, loc, rfl, hpfx⟩ := List.eq_append_cons_of_mem hmem
    have hloc : ':'.toNat ∉ loc := by
      rw [List.count_append, List.count_cons_self, List.count_eq_zero.mpr hpfx] at h
      exact List.count_eq_zero.mp (by omega)
    have hall : ∀ c ∈ pfx, decide (c ≠ ':'.toNat) = true := fun c hc =>
      decide_eq_true fun heq => hpfx (heq ▸ hc)
    refine .inr ⟨pfx, loc, rfl, hpfx, hloc, ?_⟩
    rw [splitName, if_pos hmem, List.takeWhile_append_of_pos hall, List.dropWhile_append_of_pos hall]
    simp
  · exact .inl ⟨hmem, if_neg hmem⟩

theorem neutral_pad {u v w : JsString} (hu : ∀ c ∈ u, xmlSpace c = true)
    (hv : ∀ c ∈ v, nameUnit c = true ∧ c ≠ ':'.toNat) (hw : ∀ c ∈ w, xmlSpace c = true) :
    ∀ c ∈ u ++ v ++ w, Neutral c := by
  intro c hc
  rcases List.mem_append.mp hc with hc | hc
  · rcases List.mem_append.mp hc with hc | hc
    · exact neutral_of_space (hu c hc)
    · exact neutral_of_unit (hv c hc).1 (hv c hc).2
  · exact neutral_of_space (hw c hc)

theorem scan_equal (hs : s.state = 0) (hname : s.name = []) : scan string i '='.toNat s
    = .ok (if s.idx < s.colonIdx then { s with
        name := trim (slice string s.idx i)
        ns := trim (slice string s.idx s.colonIdx)
        localName := trim (slice string (s.colonIdx + 1) i) }
      else { s with
        name := trim (slice string s.idx i)
        ns := []
        localName := trim (slice string s.idx i) }) := by
  show scanEqual string i s = _
  rw [scanEqual, if_neg (by rw [hs]; decide), if_neg (by rw [hname]; decide)]
  simp only
  split_ifs <;> rfl

/-- The text of the name, with the white space around it. -/
theorem slice_name (a : Printed) (ha : a.Clean) {done : JsString}
    (hstring : string = done ++ (a.before ++ a.name ++ a.afterName ++ '='.toNat :: rest))
    (hi : i = done.length + (a.before ++ a.name ++ a.afterName).length) :
    trim (slice string done.length i) = a.name := by
  rw [slice_eq (hstring.trans (by rw [List.append_assoc])) rfl hi]
  exact trim_space a.before_space a.afterName_space ha.name

/-- What is read of a name without a colon is the name. -/
theorem scanFrom_name_plain (a : Printed) (ha : a.Clean) {done : JsString}
    (hstring : string = done ++ (a.before ++ a.name ++ a.afterName ++ '='.toNat :: rest))
    (hs : Between done.length s) (hi : i = done.length + (a.before ++ a.name ++ a.afterName).length)
    (hmem : ':'.toNat ∉ a.name) (hsplit : splitName a.name = ([], a.name)) :
    scanFrom string done.length (a.before ++ a.name ++ a.afterName ++ '='.toNat :: rest) s
      = scanFrom string (i + 1) rest
        { s with
          name := a.name
          ns := a.read.ns
          localName := a.read.localName } := by
  have hread : a.read = ⟨a.name, [], a.name, a.value⟩ := by
    rw [Printed.read, Printed.attribute, hsplit]
    exact ite_self _
  have hunit : ∀ c ∈ a.name, nameUnit c = true ∧ c ≠ ':'.toNat :=
    fun c hc => ⟨a.name_unit c hc, fun h => hmem (h ▸ hc)⟩
  have hcolon := hs.colonIdx
  rw [scanFrom_neutral (neutral_pad a.before_space hunit a.afterName_space), ← hi]
  refine scanFrom_cons ?_
  rw [scan_equal hs.state hs.name, hs.idx, if_neg (by omega), slice_name a ha hstring hi, hread]

/-- What is read of a name with a colon, unless the attribute starts with it. -/
theorem Printed.read_colon (a : Printed) {pfx loc : JsString}
    (hname : a.name = pfx ++ ':'.toNat :: loc) (hpfx : ':'.toNat ∉ pfx)
    (hsplit : splitName a.name = (pfx, loc)) :
    a.read = if a.before ++ pfx = [] then ⟨a.name, [], a.name, a.value⟩
      else ⟨a.name, pfx, loc, a.value⟩ := by
  have hlead : (a.before = [] ∧ a.name.head? = some ':'.toNat) ↔ a.before ++ pfx = [] := by
    rw [List.append_eq_nil_iff, hname]
    refine and_congr_right fun _ => ?_
    cases pfx with
    | nil => exact iff_of_true rfl rfl
    | cons c pfx =>
        refine iff_of_false (fun h => hpfx ?_) (List.cons_ne_nil _ _)
        rw [← Option.some.inj h]
        exact List.mem_cons_self ..
  rw [Printed.read, Printed.attribute, hsplit]
  exact if_congr hlead rfl rfl

/-- The scanner takes the index of the colon, and cuts the name there. -/
theorem scanFrom_name_colon (a : Printed) (ha : a.Clean) {done pfx loc : JsString}
    (hstring : string = done ++ (a.before ++ a.name ++ a.afterName ++ '='.toNat :: rest))
    (hs : Between done.length s) (hi : i = done.length + (a.before ++ a.name ++ a.afterName).length)
    (hname : a.name = pfx ++ ':'.toNat :: loc) (hpfx : ':'.toNat ∉ pfx) (hloc : ':'.toNat ∉ loc)
    (hsplit : splitName a.name = (pfx, loc)) :
    ∃ k, k ≤ i ∧ scanFrom string done.length (a.before ++ a.name ++ a.afterName ++ '='.toNat :: rest) s
      = scanFrom string (i + 1) rest
        { s with
          name := a.name
          ns := a.read.ns
          localName := a.read.localName
          colonIdx := k } := by
  have hunit : ∀ c ∈ pfx ++ loc, nameUnit c = true ∧ c ≠ ':'.toNat := by
    intro c hc
    refine ⟨a.name_unit c ?_, ?_⟩
    · rw [hname]
      exact List.mem_append.mpr ((List.mem_append.mp hc).imp_right (List.mem_cons_of_mem _))
    · rintro rfl
      exact (List.mem_append.mp hc).elim hpfx hloc
  have hbefore : ∀ c ∈ a.before ++ pfx, Neutral c := by
    have h := neutral_pad a.before_space (fun c hc => hunit c (List.mem_append_left _ hc))
      (w := []) fun c hc => nomatch hc
    rwa [List.append_nil] at h
  have hafter : ∀ c ∈ loc ++ a.afterName, Neutral c :=
    neutral_pad (u := []) (fun c hc => nomatch hc) (fun c hc => hunit c (List.mem_append_right _ hc))
      a.afterName_space
  have htext : a.before ++ a.name ++ a.afterName ++ '='.toNat :: rest
      = (a.before ++ pfx) ++ ':'.toNat :: ((loc ++ a.afterName) ++ '='.toNat :: rest) := by
    rw [hname]
    simp
  obtain ⟨p, hp⟩ : ∃ p, p = done.length + (a.before ++ pfx).length := ⟨_, rfl⟩
  have hlast : p + 1 + (loc ++ a.afterName).length = i := by
    rw [hp, hi, hname]
    simp only [List.length_append, List.length_cons]
    omega
  have hcolon : scan string p ':'.toNat s = .ok { s with colonIdx := p } := by
    show Except.ok (scanColon p s) = _
    rw [scanColon, if_neg (by rw [hs.state]; decide), if_pos (by rw [hs.idx]; exact hs.colonIdx)]
  have hns : trim (slice string done.length p) = pfx := by
    rw [slice_eq (hstring.trans (by rw [htext])) rfl hp]
    have h := trim_space (v := []) a.before_space (fun c hc => nomatch hc)
      (show Trimmed trimChar pfx by have := ha.ns; rwa [hsplit] at this)
    rwa [List.append_nil] at h
  have hlocal : trim (slice string (p + 1) i) = loc := by
    have hdone : string = (done ++ (a.before ++ pfx) ++ [':'.toNat])
        ++ ((loc ++ a.afterName) ++ '='.toNat :: rest) := by
      rw [hstring, htext]
      simp
    rw [slice_eq hdone (by rw [hp]; simp; omega) hlast.symm]
    exact trim_space (u := []) (fun c hc => nomatch hc) a.afterName_space
      (show Trimmed trimChar loc by have := ha.localName; rwa [hsplit] at this)
  have hlead : s.idx < p ↔ ¬ a.before ++ pfx = [] := by
    rw [hs.idx, hp, ← List.length_eq_zero_iff]
    omega
  refine ⟨p, by omega, ?_⟩
  rw [htext, scanFrom_neutral hbefore, ← hp, scanFrom_cons hcolon, scanFrom_neutral hafter, hlast]
  refine scanFrom_cons ?_
  refine (scan_equal (s := { s with colonIdx := p }) hs.state hs.name).trans ?_
  dsimp only
  rw [hs.idx, slice_name a ha hstring hi, hns, hlocal, a.read_colon hname hpfx hsplit, ← hs.idx]
  by_cases h : a.before ++ pfx = []
  · rw [if_neg fun hlt => hlead.mp hlt h, if_pos h]
  · rw [if_pos (hlead.mpr h), if_neg h]

/-- Up to the equal sign, whose index is `i`. -/
theorem scanFrom_name (a : Printed) (ha : a.Clean) {done : JsString}
    (hstring : string = done ++ (a.before ++ a.name ++ a.afterName ++ '='.toNat :: rest))
    (hs : Between done.length s) (hi : i = (done ++ (a.before ++ a.name ++ a.afterName)).length) :
    ∃ k, k ≤ i ∧ scanFrom string done.length (a.before ++ a.name ++ a.afterName ++ '='.toNat :: rest) s
      = scanFrom string (i + 1) rest
        { s with
          name := a.name
          ns := a.read.ns
          localName := a.read.localName
          colonIdx := k } := by
  rw [List.length_append] at hi
  rcases splitName_cases a.name_colon with ⟨hmem, hsplit⟩ | ⟨pfx, loc, hname, hpfx, hloc, hsplit⟩
  · exact ⟨s.colonIdx, hs.colonIdx.trans (by omega),
      scanFrom_name_plain a ha hstring hs hi hmem hsplit⟩
  · exact scanFrom_name_colon a ha hstring hs hi hname hpfx hloc hsplit

/-- A printed attribute is read, and the variables are between attributes again. -/
theorem scanFrom_attribute (a : Printed) (ha : a.Clean) {done : JsString}
    (hstring : string = done ++ (a.text ++ rest)) (hs : Between done.length s) :
    ∃ s', scanFrom string done.length (a.text ++ rest) s
        = scanFrom string (done ++ a.text).length rest s'
      ∧ Between (done ++ a.text).length s' ∧ s'.attrs = s.attrs ++ [a.read] := by
  obtain ⟨i, hi⟩ : ∃ i, i = (done ++ (a.before ++ a.name ++ a.afterName)).length := ⟨_, rfl⟩
  have htext : a.text ++ rest = a.before ++ a.name ++ a.afterName
      ++ '='.toNat :: (a.beforeValue ++ a.quote :: (a.value ++ a.quote :: rest)) := by
    rw [Printed.text]
    simp
  have hlen : (done ++ a.text).length = i + 1 + (a.beforeValue.length + a.value.length + 2) := by
    rw [hi, Printed.text]
    simp only [List.length_append, List.length_cons, List.length_nil]
    omega
  rw [htext] at hstring ⊢
  obtain ⟨k, hk, hname⟩ := scanFrom_name a ha hstring hs hi
  have hdone : string = (done ++ (a.before ++ a.name ++ a.afterName) ++ ['='.toNat])
      ++ (a.beforeValue ++ a.quote :: (a.value ++ a.quote :: rest)) := by
    rw [hstring]
    simp
  have hvalue := scanFrom_value a ha.value
    (s := { s with name := a.name, ns := a.read.ns, localName := a.read.localName, colonIdx := k })
    hs.state a.name_ne hdone (i := i + 1) (by rw [hi]; simp; omega)
  refine ⟨_, hname.trans (hvalue.trans (by rw [hlen])), ⟨rfl, rfl, hlen.symm, ?_⟩, ?_⟩
  · show k ≤ _
    omega
  · show s.attrs ++ [_] = _
    unfold Printed.read Printed.attribute
    split_ifs <;> rfl

end Run

/-- Attributes, and white space at the end. -/
def printAttrs (l : List Printed) (after : JsString) : JsString := l.flatMap Printed.text ++ after

theorem scanFrom_printed {string after : JsString} (hafter : ∀ c ∈ after, xmlSpace c = true)
    {l : List Printed} (hl : ∀ a ∈ l, a.Clean) {done : JsString} {s : Scan}
    (hstring : string = done ++ printAttrs l after) (hs : Between done.length s) :
    ∃ s', scanFrom string done.length (printAttrs l after) s = .ok s'
      ∧ Between (done ++ l.flatMap Printed.text).length s' ∧ s'.attrs = s.attrs ++ l.map Printed.read := by
  induction l generalizing done s with
  | nil =>
      have hspace : ∀ c ∈ after, Neutral c := fun c hc => neutral_of_space (hafter c hc)
      refine ⟨s, ?_, by rwa [List.flatMap_nil, List.append_nil], (List.append_nil _).symm⟩
      have h : scanFrom string done.length (after ++ []) s
          = scanFrom string (done.length + after.length) [] s := scanFrom_neutral hspace
      rwa [List.append_nil] at h
  | cons a l ih =>
      obtain ⟨ha, hl⟩ := List.forall_mem_cons.mp hl
      have htext : printAttrs (a :: l) after = a.text ++ printAttrs l after := by
        rw [printAttrs, List.flatMap_cons, List.append_assoc]
        rfl
      rw [htext] at hstring ⊢
      obtain ⟨s₁, hstep, hs₁, hattrs₁⟩ := scanFrom_attribute a ha hstring hs
      rw [← List.append_assoc] at hstring
      obtain ⟨s₂, hrun, hs₂, hattrs₂⟩ := ih hl hstring hs₁
      refine ⟨s₂, hstep.trans hrun, ?_, ?_⟩
      · rwa [List.flatMap_cons, ← List.append_assoc]
      · rw [hattrs₂, hattrs₁, List.append_assoc]
        rfl

theorem parseAttrs_printed {l : List Printed} (hl : ∀ a ∈ l, a.Clean) {after : JsString}
    (hafter : ∀ c ∈ after, xmlSpace c = true) :
    parseAttrs (printAttrs l after) = .ok (l.map Printed.read) := by
  have hstart : Between ([] : JsString).length ⟨[], 0, [], [], [], 0, 0⟩ := ⟨rfl, rfl, rfl, le_rfl⟩
  obtain ⟨s, hrun, hs, hattrs⟩ := scanFrom_printed hafter hl rfl hstart
  have htail : (printAttrs l after).drop s.idx = after := by
    rw [hs.idx, printAttrs, List.nil_append, List.drop_left]
  have htrim : trim after = [] := by
    have h := trim_space hafter (v := []) (fun c hc => nomatch hc) trimmed_nil
    rwa [List.append_nil, List.append_nil] at h
  have hfinish : parseAttrs (printAttrs l after) = if s.name ≠ [] then
      .error (.attributeMustHaveValue s.idx)
    else if trim ((printAttrs l after).drop s.idx) ≠ [] then
      .error (.unexpectedString ((printAttrs l after).length - ((printAttrs l after).drop s.idx).length))
    else .ok s.attrs := by
    rw [parseAttrs]
    exact congrArg (· >>= _) hrun
  rw [hfinish, hs.name, if_neg fun h => h rfl, htail, htrim, if_neg fun h => h rfl, hattrs]
  rfl

/-! ## What can be returned -/

structure Tidy (e : Attribute) : Prop where
  value : ∀ c ∈ e.value, isQuote c = false
  name : Trimmed trimChar e.name
  ns : Trimmed trimChar e.ns
  localName : Trimmed trimChar e.localName

/-- Between the last quote that started a value and index `i` there is no quote. -/
structure Scan.Sound (string : JsString) (i : Nat) (s : Scan) : Prop where
  attrs : ∀ e ∈ s.attrs, e.Tidy
  name : Trimmed trimChar s.name
  ns : Trimmed trimChar s.ns
  localName : Trimmed trimChar s.localName
  quoted : s.state ≠ 0 → s.idx < i ∧ ∀ c ∈ slice string (s.idx + 1) i, isQuote c = false

theorem slice_succ {string cs : JsString} {i j c : Nat} (hdrop : string.drop j = c :: cs)
    (hij : i ≤ j) : slice string i (j + 1) = slice string i j ++ [c] := by
  have hlt : j < string.length := by
    by_contra h
    rw [List.drop_eq_nil_of_le (by omega)] at hdrop
    cases hdrop
  have hget : string[j]? = some c := by
    rw [← List.head?_drop, hdrop]
    rfl
  rw [slice, slice, List.take_add_one, hget, Option.toList_some,
    List.drop_append_of_le_length (by rw [List.length_take]; omega)]

theorem scan_sound {string cs : JsString} {i c : Nat} {s s' : Scan}
    (hdrop : string.drop i = c :: cs) (hs : s.Sound string i) (h : scan string i c s = .ok s') :
    s'.Sound string (i + 1) := by
  have hquoted : isQuote c = false → s.state ≠ 0 →
      s.idx < i + 1 ∧ ∀ d ∈ slice string (s.idx + 1) (i + 1), isQuote d = false := by
    intro hc hstate
    obtain ⟨hlt, hfree⟩ := hs.quoted hstate
    rw [slice_succ hdrop hlt]
    exact ⟨by omega, List.forall_mem_append.mpr ⟨hfree, List.forall_mem_singleton.mpr hc⟩⟩
  unfold scan at h
  split_ifs at h with hq hcolon hequal
  · obtain rfl := Except.ok.inj h
    unfold scanQuote
    split_ifs with hstate hname
    · have hne : s.state ≠ 0 := by
        rw [hstate]
        rintro rfl
        exact absurd hq (by decide)
      have hnew : Tidy ⟨s.name, s.ns, s.localName, slice string (s.idx + 1) i⟩ :=
        ⟨(hs.quoted hne).2, hs.name, hs.ns, hs.localName⟩
      refine ⟨List.forall_mem_append.mpr ⟨hs.attrs, List.forall_mem_singleton.mpr hnew⟩, trimmed_nil,
        hs.ns, hs.localName, fun h => absurd rfl h⟩
    · exact ⟨hs.attrs, hs.name, hs.ns, hs.localName, fun h => absurd rfl h⟩
    · refine ⟨hs.attrs, hs.name, hs.ns, hs.localName, fun _ => ⟨Nat.lt_succ_self i, ?_⟩⟩
      intro d hd
      rw [slice, List.drop_eq_nil_of_le (List.length_take_le ..)] at hd
      cases hd
  all_goals have hc : isQuote c = false := by rwa [Bool.not_eq_true] at hq
  · obtain rfl := Except.ok.inj h
    unfold scanColon
    split_ifs
    · exact ⟨hs.attrs, hs.name, hs.ns, hs.localName, hquoted hc⟩
    · exact ⟨hs.attrs, hs.name, hs.ns, hs.localName, hquoted hc⟩
    · exact ⟨hs.attrs, hs.name, hs.ns, hs.localName, hquoted hc⟩
  · unfold scanEqual at h
    split_ifs at h with hstate hname hlt
    · obtain rfl := Except.ok.inj h
      exact ⟨hs.attrs, hs.name, hs.ns, hs.localName, hquoted hc⟩
    · obtain rfl := Except.ok.inj h
      exact ⟨hs.attrs, trimmed_trim _, trimmed_trim _, trimmed_trim _, hquoted hc⟩
    · obtain rfl := Except.ok.inj h
      exact ⟨hs.attrs, trimmed_trim _, trimmed_nil, trimmed_trim _, hquoted hc⟩
  · obtain rfl := Except.ok.inj h
    exact ⟨hs.attrs, hs.name, hs.ns, hs.localName, hquoted hc⟩

theorem scanFrom_sound {string cs : JsString} {i : Nat} {s s' : Scan} (hdrop : string.drop i = cs)
    (hs : s.Sound string i) (h : scanFrom string i cs s = .ok s') : ∀ e ∈ s'.attrs, e.Tidy := by
  induction cs generalizing i s with
  | nil =>
      obtain rfl := Except.ok.inj h
      exact hs.attrs
  | cons c cs ih =>
      obtain ⟨s₁, hstep, hrun⟩ := bind_eq_ok_iff.mp h
      refine ih ?_ (scan_sound hdrop hs hstep) hrun
      rw [← List.drop_drop, hdrop]
      rfl

theorem parseAttrs_tidy {string : JsString} {attrs : List Attribute}
    (h : parseAttrs string = .ok attrs) : ∀ e ∈ attrs, e.Tidy := by
  have hstart : Scan.Sound string 0 ⟨[], 0, [], [], [], 0, 0⟩ :=
    ⟨fun e he => (nomatch he), trimmed_nil, trimmed_nil, trimmed_nil, fun h => absurd rfl h⟩
  obtain ⟨s, hrun, h⟩ := bind_eq_ok_iff.mp h
  dsimp only at h
  split_ifs at h
  obtain rfl := Except.ok.inj h
  exact scanFrom_sound rfl hstart hrun

/-! ## Round trips -/

/-- The attributes that were printed are returned. -/
def Returned (l : List Printed) (after : JsString) : Prop :=
  parseAttrs (printAttrs l after) = .ok (l.map Printed.attribute)

theorem parseAttrs_iff (l : List Printed) {after : JsString}
    (hafter : ∀ c ∈ after, xmlSpace c = true) : Returned l after
      ↔ ∀ a ∈ l, a.Clean ∧ ¬ (a.before = [] ∧ a.name.head? = some ':'.toNat) := by
  constructor
  · intro h a ha
    have htidy : ∀ a ∈ l, a.Clean := fun a ha =>
      have h := parseAttrs_tidy h a.attribute (List.mem_map_of_mem ha)
      ⟨h.value, h.name, h.ns, h.localName⟩
    have hread : l.map Printed.read = l.map Printed.attribute :=
      Except.ok.inj ((parseAttrs_printed htidy hafter).symm.trans h)
    refine ⟨htidy a ha, fun hlead => ?_⟩
    have heq := List.map_inj_left.mp hread a ha
    rw [Printed.read, if_pos hlead] at heq
    have hlocal : a.name = (splitName a.name).2 := congrArg Attribute.localName heq
    obtain ⟨-, hhead⟩ := hlead
    cases hname : a.name with
    | nil => exact a.name_ne hname
    | cons c cs =>
        rw [hname] at hhead hlocal
        obtain rfl := Option.some.inj hhead
        rw [splitName, if_pos (List.mem_cons_self ..)] at hlocal
        have hlen := congrArg List.length hlocal
        simp at hlen
  · intro h
    rw [Returned, parseAttrs_printed (fun a ha => (h a ha).1) hafter]
    congr 1
    refine List.map_congr_left fun a ha => ?_
    rw [Printed.read, if_neg (h a ha).2]

/-- An apostrophe between double quotes. -/
def apostrophe : Printed :=
  ⟨[], js "a", [], [], 34, js "it's", by decide, by decide, by decide, by decide, by decide,
    by decide, by decide, by decide⟩

theorem apostrophe_iff : Returned [apostrophe] [] ↔ ∀ a ∈ [apostrophe], a.Clean
    ∧ ¬ (a.before = [] ∧ a.name.head? = some ':'.toNat) :=
  parseAttrs_iff [apostrophe] fun _ hc => nomatch hc

theorem apostrophe_lost : ¬ Returned [apostrophe] [] := by
  have h : parseAttrs (printAttrs [apostrophe] []) = .error (.attributeMustHaveValue 7) := by rfl
  unfold Returned
  rw [h]
  exact fun h => nomatch h

end Attribute

end GenieAcs
