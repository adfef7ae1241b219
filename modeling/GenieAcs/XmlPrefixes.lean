import GenieAcs.XmlScanner

/-!
# Beginnings of a document

The parser reads from left to right and looks back only: what follows a text does not
change which elements the text has outside of all others, nor where their bodies begin
(`tops_append`). A text that begins with the first tag of an element has an element
when it is parsed at all (`parseXml_first`).
-/

namespace GenieAcs

namespace Xml

open Attribute

/-! ## Outlines -/

/-- A tag without its names. -/
inductive Outline where
  | opening (bodyIndex : Nat)
  | selfClosing (bodyIndex : Nat)
  | closing

def Tag.outline : Tag → Outline
  | .opening h => .opening h.bodyIndex
  | .selfClosing h => .selfClosing h.bodyIndex
  | .closing _ _ _ => .closing

def Outline.body : Outline → Option Nat
  | .opening b => some b
  | .selfClosing b => some b
  | .closing => none

/-- How many elements are open, the root among them, and where the bodies of the root's
children begin. -/
structure Shape where
  depth : Nat
  tops : List Nat

def Shape.add (s : Shape) (b : Nat) : List Nat := if s.depth = 1 then s.tops ++ [b] else s.tops

def Shape.step (s : Shape) : Outline → Shape
  | .opening b => ⟨s.depth + 1, s.add b⟩
  | .selfClosing b => ⟨s.depth, s.add b⟩
  | .closing => ⟨s.depth - 1, s.tops⟩

/-- The first element that is open in the root counts as its child. -/
def stackTops : List Element → List Nat
  | [] => []
  | [r] => r.children.map Element.bodyIndex
  | [e, r] => r.children.map Element.bodyIndex ++ [e.bodyIndex]
  | _ :: e :: r :: stack => stackTops (e :: r :: stack)

def Tree.shape (t : Tree) : Shape where
  depth := t.stack.length
  tops := match t.stack with
    | [] => (t.closedRoot.getD root).children.map Element.bodyIndex
    | stack => stackTops stack

section Trees

variable {string : JsString} {t t' : Tree} {tag : Tag} {x : Element}

/-- A closed element goes to its parent with its body where it was. -/
theorem close_shape {e e' : Element} {stack : List Element} {closedRoot : Option Element}
    (h : (match stack with
      | [] => (.ok ⟨[], some e'⟩ : Except XmlError Tree)
      | parent :: stack => .ok ⟨parent.push e' :: stack, closedRoot⟩) = .ok t')
    (hchildren : e'.children = e.children) (hbody : e'.bodyIndex = e.bodyIndex) :
    t'.shape = (Tree.shape ⟨e :: stack, closedRoot⟩).step .closing := by
  match stack with
  | [] =>
      cases h
      simp [Tree.shape, stackTops, Shape.step, hchildren]
  | [r] =>
      cases h
      simp [Tree.shape, stackTops, Shape.step, Element.push, hbody]
  | [r, r'] => cases h; rfl
  | r :: r' :: r'' :: stack => cases h; rfl

theorem apply_shape (h : t.apply string tag = .ok t') : t'.shape = t.shape.step tag.outline := by
  obtain ⟨stack, closedRoot⟩ := t
  cases tag with
  | opening h' =>
      match stack with
      | [] => cases h
      | [r] => cases h; rfl
      | e :: r :: stack => cases h; rfl
  | selfClosing h' =>
      match stack with
      | [] => cases h
      | [r] =>
          cases h
          simp [Tree.shape, stackTops, Shape.step, Shape.add, Tag.outline, Element.push,
            Header.element]
      | [e, r] => cases h; rfl
      | e :: r :: r' :: stack => cases h; rfl
  | closing name start i =>
      match stack with
      | [] => cases h
      | e :: stack =>
          rw [Tree.apply] at h
          simp only at h
          split_ifs at h with hname hchildren
          · exact close_shape h rfl rfl
          · exact close_shape h rfl rfl

theorem foldlM_shape {tags : List Tag} (h : tags.foldlM (Tree.apply string) t = .ok t') :
    t'.shape = (tags.map Tag.outline).foldl Shape.step t.shape := by
  induction tags generalizing t with
  | nil =>
      cases h
      rfl
  | cons tag tags ih =>
      rw [List.foldlM_cons] at h
      cases hstep : t.apply string tag with
      | error e =>
          rw [hstep] at h
          cases h
      | ok t₁ =>
          rw [hstep] at h
          rw [List.map_cons, List.foldl_cons, ← apply_shape hstep]
          exact ih h

theorem finish_tops {s : Scanner} (h : finish string s t = .ok x) :
    s.state1 = 0 ∧ x.children.map Element.bodyIndex = t.shape.tops := by
  obtain ⟨stack, closedRoot⟩ := t
  unfold finish at h
  split_ifs at h with hstate
  refine ⟨by omega, ?_⟩
  match stack with
  | [] =>
      simp only at h
      split_ifs at h <;> (cases h; rfl)
  | [r] =>
      simp only at h
      split_ifs at h <;> (cases h; rfl)
  | e :: r :: stack => cases h

/-- The shape of a text. -/
def shapeOf (string : JsString) : Shape :=
  ((tagsOf string).map Tag.outline).foldl Shape.step ⟨1, []⟩

theorem parseXml_shape (h : parseXml string = .ok x) : ∃ s, scanEnd string = .ok s
    ∧ s.state1 = 0 ∧ x.children.map Element.bodyIndex = (shapeOf string).tops := by
  rw [parseXml_eq] at h
  cases hfold : (tagsOf string).foldlM (Tree.apply string) ⟨[root], none⟩ with
  | error e =>
      rw [hfold] at h
      cases h
  | ok t =>
      rw [hfold] at h
      cases hend : scanEnd string with
      | error e =>
          rw [hend] at h
          cases h
      | ok s =>
          rw [hend] at h
          obtain ⟨hs, htops⟩ := finish_tops h
          exact ⟨s, rfl, hs, by rw [htops, foldlM_shape hfold]; rfl⟩

/-- Nothing is taken from the tops. -/
theorem foldl_tops (os : List Outline) (s : Shape) : ∃ more,
    (os.foldl Shape.step s).tops = s.tops ++ more ∧ ∀ b ∈ more, ∃ o ∈ os, o.body = some b := by
  induction os generalizing s with
  | nil => exact ⟨[], (List.append_nil _).symm, fun _ h => absurd h List.not_mem_nil⟩
  | cons o os ih =>
      obtain ⟨more, hmore, hbody⟩ := ih (s.step o)
      obtain ⟨first, hfirst, hfirstBody⟩ : ∃ first, (s.step o).tops = s.tops ++ first
          ∧ ∀ b ∈ first, o.body = some b := by
        cases o with
        | closing => exact ⟨[], (List.append_nil _).symm, fun _ h => absurd h List.not_mem_nil⟩
        | opening b =>
            by_cases hd : s.depth = 1
            · exact ⟨[b], by simp [Shape.step, Shape.add, hd], by simp [Outline.body]⟩
            · exact ⟨[], by simp [Shape.step, Shape.add, hd], by simp⟩
        | selfClosing b =>
            by_cases hd : s.depth = 1
            · exact ⟨[b], by simp [Shape.step, Shape.add, hd], by simp [Outline.body]⟩
            · exact ⟨[], by simp [Shape.step, Shape.add, hd], by simp⟩
      refine ⟨first ++ more, ?_, ?_⟩
      · rw [List.foldl_cons, hmore, hfirst, List.append_assoc]
      · intro b hb
        obtain hb | hb := List.mem_append.mp hb
        · exact ⟨o, List.mem_cons_self, hfirstBody b hb⟩
        · obtain ⟨o', ho', hbody'⟩ := hbody b hb
          exact ⟨o', List.mem_cons_of_mem o ho', hbody'⟩

end Trees

/-! ## Scanning a beginning -/

section Scans

variable {before cs v : JsString} {i c : Nat} {s s' : Scanner} {tag : Option Tag}

/-- What the scanner is in began before index `i`. -/
def Begun (i : Nat) (s : Scanner) : Prop :=
  (s.state1 ≠ 0 → s.state1Index < i) ∧ (s.state2 ≠ 0 → s.state2Index < i)

theorem begun_start : Begun 0 start := ⟨fun h => absurd rfl h, fun h => absurd rfl h⟩

theorem Begun.succ (h : Begun i s) : Begun (i + 1) s :=
  ⟨fun hs => Nat.lt_succ_of_lt (h.1 hs), fun hs => Nat.lt_succ_of_lt (h.2 hs)⟩

theorem Begun.back (h : Begun i s) : Begun (i + 1) s.back :=
  ⟨fun hs => Nat.lt_succ_of_lt (h.2 hs), fun hs => absurd rfl hs⟩

theorem Begun.enter (h : Begun i s) (state : Nat) : Begun (i + 1) (s.enter state i) :=
  ⟨fun _ => Nat.lt_succ_self i, fun hs => Nat.lt_succ_of_lt (h.1 hs)⟩

theorem Begun.lessThan (h : Begun i s) (hs : kindOf s.state1 = Xml.lessThan) :
    s.state1Index < i := by
  refine h.1 ?_
  intro hzero
  rw [hzero] at hs
  exact absurd hs (by decide)

theorem scan_begun {string : JsString} (hs : Begun i s)
    (h : scan string i c s = .ok (s', tag)) : Begun (i + 1) s' := by
  have hquote : ∀ q, Begun (i + 1) (scanQuote q i s) := by
    intro q
    unfold scanQuote
    split_ifs
    · exact hs.back
    · exact hs.enter q
    · exact hs.succ
  have hshift : ∀ d, kindOf s.state1 = Xml.lessThan →
      Begun (i + 1) { s with state1 := s.state1 ^^^ d } :=
    fun d hkind => ⟨fun _ => Nat.lt_succ_of_lt (hs.lessThan hkind), hs.succ.2⟩
  unfold scan at h
  split_ifs at h
  · cases h
    exact hquote _
  · cases h
    exact hquote _
  · cases h
    unfold scanLessThan
    split_ifs
    · exact hs.enter _
    · exact hs.succ
  · cases h
    unfold scanColon
    split_ifs with hcolon
    · exact hshift _ hcolon.1
    · exact hs.succ
  · cases h
    unfold scanSpace
    split_ifs with hspace
    · exact hshift _ hspace.1
    · exact hs.succ
  · unfold scanGreaterThan at h
    split_ifs at h <;> cases h
    all_goals first
      | exact hs.succ
      | exact hs.back
  · cases h
    exact hs.succ

/-- A text without `>` is not cut by one. -/
theorem startsAt_append {p text : JsString} {k : Nat} (htext : '>'.toNat ∉ text) (hk : k ≤ i)
    (hi : p[i]? = some '>'.toNat) : startsAt (p ++ v) text k = startsAt p text k := by
  have hlen : i < p.length := (List.getElem?_eq_some_iff.mp hi).1
  rw [startsAt, startsAt, List.drop_append_of_le_length (by omega), Bool.eq_iff_iff,
    List.isPrefixOf_iff_prefix, List.isPrefixOf_iff_prefix]
  refine ⟨fun h => ?_, fun h => h.trans (List.prefix_append _ _)⟩
  obtain hle | hle := List.prefix_or_prefix_of_prefix h (List.prefix_append (p.drop k) v)
  · exact hle
  · exfalso
    refine htext (hle.subset ?_)
    have hget : (p.drop k)[i - k]? = some '>'.toNat := by
      rw [List.getElem?_drop, Nat.add_sub_cancel' hk, hi]
    exact List.mem_of_getElem? hget

theorem tagAt_outline {p : JsString} (hs : s.state1Index < i) (hi : i < p.length) :
    (tagAt (p ++ v) i s).outline = (tagAt p i s).outline := by
  have hsecond : (p ++ v)[s.state1Index + 1]? = p[s.state1Index + 1]? :=
    List.getElem?_append_left (by omega)
  have hlast : (p ++ v)[i - 1]? = p[i - 1]? := List.getElem?_append_left (by omega)
  simp only [tagAt, hsecond, hlast]
  split_ifs <;> rfl

/-- A result of the scanner with the tag's outline. -/
def outlined (r : Except XmlError (Scanner × Option Tag)) :
    Except XmlError (Scanner × Option Outline) :=
  r.map fun r => (r.1, r.2.map Tag.outline)

theorem scan_append {p : JsString} (hs : Begun i s) (hi : p[i]? = some c) :
    outlined (scan (p ++ v) i c s) = outlined (scan p i c s) := by
  have hlen : i < p.length := (List.getElem?_eq_some_iff.mp hi).1
  have hgreater : c = '>'.toNat →
      outlined (scanGreaterThan (p ++ v) i s) = outlined (scanGreaterThan p i s) := by
    rintro rfl
    by_cases hkind : kindOf s.state1 = lessThan
    · have hbegun := hs.lessThan hkind
      have hcdata : '>'.toNat ∉ js "![CDATA[" ∧ '>'.toNat ∉ js "!--" := by decide
      have hend : ∀ text, endsAt (p ++ v) text i = endsAt p text i := by
        intro text
        rw [endsAt, endsAt, List.take_append_of_le_length hlen.le]
      have htag := @tagAt_outline v i s p hbegun hlen
      unfold scanGreaterThan
      rw [List.getElem?_append_left (by omega), List.getElem?_append_left (by omega),
        startsAt_append hcdata.1 (by omega) hi, startsAt_append hcdata.2 (by omega) hi, hend, hend]
      split_ifs
      all_goals first
        | rfl
        | exact congrArg (fun o => Except.ok (s.back, some o)) htag
    · rw [scanGreaterThan, scanGreaterThan, if_pos hkind, if_pos hkind]
  unfold scan
  split_ifs with h1 h2 h3 h4 h5 h6
  · rfl
  · rfl
  · rfl
  · rfl
  · rfl
  · exact hgreater h6
  · rfl

theorem outlined_ok {r : Except XmlError (Scanner × Option Tag)} {o : Option Outline}
    (h : outlined r = .ok (s', o)) : ∃ tag, r = .ok (s', tag) ∧ tag.map Tag.outline = o := by
  cases r with
  | error e => cases h
  | ok r =>
      obtain ⟨hs, ho⟩ := Prod.mk.inj (Except.ok.inj h)
      exact ⟨r.2, by rw [← hs], ho⟩

/-- What follows a text does not change the outlines of its tags. -/
theorem scanTags_append {p : JsString} (hp : p = before ++ cs) (hs : Begun before.length s)
    (hend : (scanTags p before.length cs s).2 = .ok s') :
    (scanTags (p ++ v) before.length (cs ++ v) s).1.map Tag.outline
      = (scanTags p before.length cs s).1.map Tag.outline
        ++ (scanTags (p ++ v) p.length v s').1.map Tag.outline := by
  induction cs generalizing before s with
  | nil =>
      cases hend
      rw [hp, List.append_nil]
      rfl
  | cons c cs ih =>
      have hi : p[before.length]? = some c := by rw [hp]; simp
      have hlen : (before ++ [c]).length = before.length + 1 := by simp
      rw [scanTags] at hend ⊢
      cases hscan : scan p before.length c s with
      | error e =>
          rw [hscan] at hend
          cases hend
      | ok r =>
          obtain ⟨s₁, tag⟩ := r
          rw [hscan] at hend
          have hsame := @scan_append v before.length c s p hs hi
          rw [hscan] at hsame
          obtain ⟨tag', hscan', htag⟩ := outlined_ok hsame
          have hrest := @ih (before ++ [c]) s₁ (by rw [hp]; simp)
            (by rw [hlen]; exact scan_begun hs hscan) (by rw [hlen]; exact hend)
          rw [hlen] at hrest
          rw [List.cons_append, scanTags, hscan']
          simp only [List.map_append, hrest, List.append_assoc]
          congr 1
          cases tag <;> cases tag' <;> simp_all

theorem scan_body {string : JsString} {tag : Tag} (h : scan string i c s = .ok (s', some tag)) :
    c = '>'.toNat ∧ ∀ b, tag.outline.body = some b → b = i + 1 := by
  unfold scan at h
  split_ifs at h with h1 h2 h3 h4 h5 h6
  all_goals try cases h
  refine ⟨h6, ?_⟩
  unfold scanGreaterThan at h
  split_ifs at h
  all_goals try cases h
  unfold tagAt
  intro b hb
  simp only at hb
  split_ifs at hb <;> cases hb
  · rfl
  · rfl

/-- The body of an element begins behind a `>`. -/
theorem scanTags_body {string : JsString} (hp : string = before ++ cs) {tag : Tag} {b : Nat}
    (htag : tag ∈ (scanTags string before.length cs s).1) (hb : tag.outline.body = some b) :
    before.length < b ∧ string[b - 1]? = some '>'.toNat := by
  induction cs generalizing before s with
  | nil => cases htag
  | cons c cs ih =>
      have hlen : (before ++ [c]).length = before.length + 1 := by simp
      rw [scanTags] at htag
      cases hscan : scan string before.length c s with
      | error e =>
          rw [hscan] at htag
          cases htag
      | ok r =>
          obtain ⟨s₁, tag'⟩ := r
          rw [hscan] at htag
          obtain hmem | hmem := List.mem_append.mp htag
          · rw [Option.mem_toList] at hmem
            obtain rfl : tag' = some tag := hmem
            obtain ⟨rfl, hbody⟩ := scan_body hscan
            obtain rfl := hbody b hb
            exact ⟨Nat.lt_succ_self _, by rw [hp]; simp⟩
          · have hrest := @ih (before ++ [c]) s₁ (by rw [hp]; simp) (by rw [hlen]; exact hmem)
            rw [hlen] at hrest
            exact ⟨by omega, hrest.2⟩

/-! ## Parsing a beginning -/

/-- Where the bodies of a document's elements begin. -/
def bodies (x : Element) : List Nat := x.children.map Element.bodyIndex

variable {p : JsString} {x y : Element}

theorem bodies_sound (h : parseXml p = .ok x) {b : Nat} (hb : b ∈ bodies x) :
    0 < b ∧ b ≤ p.length ∧ p[b - 1]? = some '>'.toNat := by
  obtain ⟨s, -, -, htops⟩ := parseXml_shape h
  obtain ⟨more, hmore, hbody⟩ := foldl_tops ((tagsOf p).map Tag.outline) ⟨1, []⟩
  rw [bodies, htops, shapeOf, hmore, List.nil_append] at hb
  obtain ⟨o, ho, hob⟩ := hbody b hb
  obtain ⟨tag, htag, rfl⟩ := List.mem_map.mp ho
  obtain ⟨hpos, hget⟩ := @scanTags_body [] p start p rfl tag b htag hob
  have hlt := (List.getElem?_eq_some_iff.mp hget).1
  have hpos' : 0 < b := hpos
  exact ⟨hpos', by omega, hget⟩

/-- What is added to a document adds elements behind its own. -/
theorem bodies_append (hx : parseXml p = .ok x) (hy : parseXml (p ++ v) = .ok y) :
    ∃ more, bodies y = bodies x ++ more ∧ ∀ b ∈ more, p.length < b := by
  obtain ⟨s, hend, -, htops⟩ := parseXml_shape hx
  obtain ⟨-, -, -, htops'⟩ := parseXml_shape hy
  have htags := @scanTags_append [] p v start s p rfl begun_start hend
  have hshape : shapeOf (p ++ v)
      = ((scanTags (p ++ v) p.length v s).1.map Tag.outline).foldl Shape.step (shapeOf p) := by
    rw [shapeOf, shapeOf, tagsOf, ← List.foldl_append]
    exact congrArg (List.foldl Shape.step _) htags
  obtain ⟨more, hmore, hbody⟩ := foldl_tops
    ((scanTags (p ++ v) p.length v s).1.map Tag.outline) (shapeOf p)
  refine ⟨more, ?_, ?_⟩
  · rw [bodies, htops', hshape, hmore, bodies, htops]
  · intro b hb
    obtain ⟨o, ho, hob⟩ := hbody b hb
    obtain ⟨tag, htag, rfl⟩ := List.mem_map.mp ho
    exact (scanTags_body rfl htag hob).1

/-! ## The first tag -/

/-- In the tag that the text begins with, or in quotes in it. -/
def InFirst (s : Scanner) : Prop :=
  (∃ k w, Inside 0 k w s) ∨
    ∃ q k w, isQuote q = true ∧ kindOf s.state1 = quoteState q ∧ Inside 0 k w s.back

/-- The second unit of a text does not make its first tag another thing than the tag
of an element. -/
def ElementTag (string : JsString) : Prop :=
  ∀ c ∈ string[1]?, c ∉ ['/'.toNat, '!'.toNat, '?'.toNat]

theorem InFirst.state_ne (h : InFirst s) : s.state1 ≠ 0 := by
  intro hzero
  obtain ⟨k, w, hin⟩ | ⟨q, k, w, -, hkind, -⟩ := h
  · have hkind := hin.kind
    rw [hzero] at hkind
    exact absurd hkind (by decide)
  · rw [hzero] at hkind
    exact (quoteState_ne q).1 hkind.symm

theorem scan_first {string : JsString} (hstring : ElementTag string) (hs : InFirst s)
    (h : scan string i c s = .ok (s', tag)) :
    (tag = none ∧ InFirst s') ∨ ∃ t b, tag = some t ∧ t.outline.body = some b := by
  obtain ⟨k, w, hin⟩ | ⟨q, k, w, hq, hkind, hback⟩ := hs
  · by_cases hplain : plainUnit c = true
    · obtain ⟨s₁, hscan, hin'⟩ := scan_plain string i hin hplain
      cases hscan.symm.trans h
      exact .inl ⟨rfl, .inl ⟨_, _, hin'⟩⟩
    by_cases hquote : isQuote c = true
    · obtain ⟨s₁, hscan, hkind, hin'⟩ := scan_open string i hin hquote
      cases hscan.symm.trans h
      exact .inl ⟨rfl, .inr ⟨c, _, _, hquote, hkind, hin'⟩⟩
    obtain rfl : c = '>'.toNat := by
      simpa [plainUnit, hquote] using hplain
    have hget : ∀ d, d ∈ ['/'.toNat, '!'.toNat, '?'.toNat] →
        string[s.state1Index + 1]? ≠ some d := fun d hd heq =>
      hstring d (by rwa [hin.index] at heq) hd
    have hscan : scan string i '>'.toNat s = .ok (s.back, some (tagAt string i s)) := by
      show scanGreaterThan string i s = _
      rw [scanGreaterThan, if_neg (by rw [hin.kind]; simp), if_neg (hget _ (by simp)),
        if_neg (hget _ (by simp))]
    cases hscan.symm.trans h
    refine .inr ⟨_, i + 1, rfl, ?_⟩
    unfold tagAt
    simp only [if_neg (hget '/'.toNat (by simp))]
    split_ifs <;> rfl
  · by_cases hc : c = q
    · subst hc
      have hclose : scan string i c s = .ok (s.back, none) := scan_close hkind hq i
      cases hclose.symm.trans h
      exact .inl ⟨rfl, .inl ⟨k, w, hback⟩⟩
    · have hsame : scan string i c s = .ok (s, none) := scan_quoted hq hkind hc i
      cases hsame.symm.trans h
      exact .inl ⟨rfl, .inr ⟨q, k, w, hq, hkind, hback⟩⟩

theorem scanTags_first {string : JsString} (hstring : ElementTag string) (hs : InFirst s)
    (hend : (scanTags string i cs s).2 = .ok s') (hstate : s'.state1 = 0) :
    ∃ t ts b, (scanTags string i cs s).1 = t :: ts ∧ t.outline.body = some b := by
  induction cs generalizing i s with
  | nil =>
      cases hend
      exact absurd hstate hs.state_ne
  | cons c cs ih =>
      rw [scanTags] at hend ⊢
      cases hscan : scan string i c s with
      | error e =>
          rw [hscan] at hend
          cases hend
      | ok r =>
          obtain ⟨s₁, tag⟩ := r
          rw [hscan] at hend
          obtain ⟨rfl, hs₁⟩ | ⟨t, b, rfl, hb⟩ := scan_first hstring hs hscan
          · exact ih hs₁ hend
          · exact ⟨t, _, b, rfl, hb⟩

/-- A text that begins with the tag of an element has an element. -/
theorem parseXml_first (hp : p.head? = some '<'.toNat) (hstring : ElementTag p)
    (h : parseXml p = .ok x) : x.children ≠ [] := by
  obtain ⟨u, rfl⟩ : ∃ u, p = '<'.toNat :: u := by
    cases p with
    | nil => cases hp
    | cons c u =>
        obtain rfl := Option.some.inj hp
        exact ⟨u, rfl⟩
  obtain ⟨s, hend, hstate, htops⟩ := parseXml_shape h
  obtain ⟨s₁, hrun, hin⟩ := @runs_lessThan start ('<'.toNat :: u) [] ⟨rfl, rfl⟩
  have hfirst := hrun u
  obtain ⟨t, ts, b, htags, hb⟩ := @scanTags_first _ 1 s₁ s _ hstring (.inl ⟨0, 0, hin⟩)
    ((congrArg Prod.snd hfirst).symm.trans hend) hstate
  have hall : tagsOf ('<'.toNat :: u) = t :: ts := (congrArg Prod.fst hfirst).trans htags
  have hstep : (Shape.step ⟨1, []⟩ t.outline).tops = [b] := by
    cases ht : t.outline <;> (rw [ht] at hb; cases hb) <;> rfl
  obtain ⟨more, hmore, -⟩ := foldl_tops (ts.map Tag.outline) (Shape.step ⟨1, []⟩ t.outline)
  intro hnil
  rw [hnil, shapeOf, hall, List.map_cons, List.foldl_cons, hmore, hstep] at htops
  cases htops

end Scans

end Xml

end GenieAcs
