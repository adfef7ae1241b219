import GenieAcs.XmlComments

/-!
# Printed documents

A document is a declaration or none, and elements with comments and text between them.
The tags that the scanner meets in it build its elements (`Builds`), each with what is read
of its tag; so the parser gives the document back just when all offsets fit in the scanner's
fields (`parseXml_print_iff`), as long as its comments are passed.
-/

namespace GenieAcs

namespace Xml

open Attribute

/-! ## Documents -/

/-- What stands between two tags, as far as it is no element. -/
inductive Piece where
  | text (u : JsString) (h : '<'.toNat ∉ u)
  | comment (c : Comment)

def Piece.print : Piece → JsString
  | .text u _ => u
  | .comment c => c.print

def Piece.comments : Piece → List Comment
  | .text _ _ => []
  | .comment c => [c]

/-- The content of an element or a document: `Forest true` has elements. -/
inductive Forest : Bool → Type where
  | last (gap : List Piece) : Forest false
  | selfClosing {b : Bool} (gap : List Piece) (t : OpenTag) (next : Forest b) : Forest true
  | leaf {b : Bool} (gap : List Piece) (t : OpenTag) (text : JsString) (h : '<'.toNat ∉ text)
      (next : Forest b) : Forest true
  | parent {b : Bool} (gap : List Piece) (t : OpenTag) (children : Forest true) (next : Forest b) :
      Forest true

def Forest.print {b : Bool} : Forest b → JsString
  | .last gap => gap.flatMap Piece.print
  | .selfClosing gap t next => gap.flatMap Piece.print ++ (t.printSelfClosing ++ next.print)
  | .leaf gap t text _ next =>
      gap.flatMap Piece.print ++ (t.printOpening ++ (text ++ (t.printClosing ++ next.print)))
  | .parent gap t children next =>
      gap.flatMap Piece.print ++
        (t.printOpening ++ (children.print ++ (t.printClosing ++ next.print)))

def Forest.tags {b : Bool} : Forest b → List OpenTag
  | .last _ => []
  | .selfClosing _ t next => t :: next.tags
  | .leaf _ t _ _ next => t :: next.tags
  | .parent _ t children next => t :: (children.tags ++ next.tags)

def Forest.comments {b : Bool} : Forest b → List Comment
  | .last gap => gap.flatMap Piece.comments
  | .selfClosing gap _ next => gap.flatMap Piece.comments ++ next.comments
  | .leaf gap _ _ _ next => gap.flatMap Piece.comments ++ next.comments
  | .parent gap _ children next =>
      gap.flatMap Piece.comments ++ (children.comments ++ next.comments)

structure Document where
  declaration : Option AttrString
  content : Forest true

def Document.print (d : Document) : JsString :=
  (d.declaration.map Xml.declaration).getD [] ++ d.content.print

/-! ## Elements -/

/-- The element of a tag, apart from its place in the text. -/
def OpenTag.element (t : OpenTag) (text : JsString) (children : List Element) : Element :=
  ⟨t.name, (splitName t.name).1, (splitName t.name).2, trim t.text, text, 0, children⟩

def Forest.elements {b : Bool} : Forest b → List Element
  | .last _ => []
  | .selfClosing _ t next => t.element [] [] :: next.elements
  | .leaf _ t text _ next => t.element text [] :: next.elements
  | .parent _ t children next => t.element [] children.elements :: next.elements

mutual

/-- An element apart from its place in the text and white space around its attributes. -/
def Element.bare : Element → Element
  | ⟨name, ns, localName, attrs, text, _, children⟩ =>
      ⟨name, ns, localName, trim attrs, text, 0, bareAll children⟩

def bareAll : List Element → List Element
  | [] => []
  | e :: es => e.bare :: bareAll es

end

/-- The parser returns, and the root has the elements of the document. -/
def Document.Restored (d : Document) : Prop :=
  ∃ e, parseXml d.print = .ok e ∧ bareAll e.children = d.content.elements

theorem bareAll_append (es es' : List Element) :
    bareAll (es ++ es') = bareAll es ++ bareAll es' := by
  induction es with
  | nil => rfl
  | cons e es ih => rw [List.cons_append, bareAll, bareAll, ih, List.cons_append]

theorem length_bareAll (es : List Element) : (bareAll es).length = es.length := by
  induction es with
  | nil => rfl
  | cons e es ih => rw [bareAll, List.length_cons, ih, List.length_cons]

/-! ## What tags build -/

def Element.pushAll (parent : Element) (es : List Element) : Element :=
  { parent with children := parent.children ++ es }

/-- The tags add elements to the element on top of the stack, which are the given ones just
when `fit` holds; or they do not match, and `fit` does not hold. -/
def Builds (string : JsString) (tags : List Tag) (elements : List Element) (fit : Prop) : Prop :=
  ∀ parent stack closed,
    (∃ es, tags.foldlM (Tree.apply string) ⟨parent :: stack, closed⟩
        = .ok ⟨parent.pushAll es :: stack, closed⟩ ∧
      es.length = elements.length ∧ (bareAll es = elements ↔ fit)) ∨
    ((∃ e, tags.foldlM (Tree.apply string) ⟨parent :: stack, closed⟩ = .error e) ∧ ¬ fit)

section Building

variable {string : JsString} {tags tags' : List Tag} {elements elements' : List Element}
  {fit fit' : Prop}

theorem builds_nil : Builds string [] [] True := by
  intro parent stack closed
  refine Or.inl ⟨[], ?_, rfl, iff_of_true rfl trivial⟩
  rw [Element.pushAll, List.append_nil]
  cases parent
  rfl

theorem builds_append (h : Builds string tags elements fit)
    (h' : Builds string tags' elements' fit') :
    Builds string (tags ++ tags') (elements ++ elements') (fit ∧ fit') := by
  intro parent stack closed
  rw [List.foldlM_append]
  obtain ⟨es, hrun, hlen, hiff⟩ | ⟨⟨e, herror⟩, hfit⟩ := h parent stack closed
  · rw [hrun]
    obtain ⟨es', hrun', hlen', hiff'⟩ | ⟨herror', hfit'⟩ := h' (parent.pushAll es) stack closed
    · refine Or.inl ⟨es ++ es', ?_, ?_, ?_⟩
      · refine hrun'.trans ?_
        rw [Element.pushAll, Element.pushAll, Element.pushAll, List.append_assoc]
      · rw [List.length_append, List.length_append, hlen, hlen']
      · rw [bareAll_append, ← hiff, ← hiff']
        have hsplit : (bareAll es).length = elements.length := by rw [length_bareAll, hlen]
        exact ⟨fun h => List.append_inj h hsplit, fun h => by rw [h.1, h.2]⟩
    · exact Or.inr ⟨herror', fun h => hfit' h.2⟩
  · rw [herror]
    exact Or.inr ⟨⟨e, rfl⟩, fun h => hfit h.1⟩

theorem bare_iff (t : OpenTag) (h : Header) (text : JsString) (i : Nat) (es children : List Element) :
    Element.bare ⟨h.name, h.ns, h.localName, h.attrs, text, i, es⟩ = t.element text children
      ↔ t.Reads h ∧ bareAll es = children := by
  rw [Element.bare, OpenTag.element, Element.mk.injEq]
  constructor
  · rintro ⟨hname, hns, hlocal, hattrs, -, -, hes⟩
    exact ⟨⟨hname, hns, hlocal, hattrs⟩, hes⟩
  · rintro ⟨⟨hname, hns, hlocal, hattrs⟩, hes⟩
    exact ⟨hname, hns, hlocal, hattrs, rfl, rfl, hes⟩

theorem builds_selfClosing (t : OpenTag) (i : Nat) :
    Builds string [.selfClosing (t.read i)] [t.element [] []] t.Fits := by
  intro parent stack closed
  refine Or.inl ⟨[(t.read i).element], rfl, rfl, ?_⟩
  rw [bareAll, bareAll, List.cons.injEq, and_iff_left rfl, ← t.read_iff i]
  exact (bare_iff t (t.read i) [] _ [] []).trans (and_iff_left rfl)

/-- The closing tag of an element with children or without. -/
theorem apply_closing {h : Header} {name : JsString} {es stack : List Element} {parent : Element}
    {closed : Option Element} (start stop : Nat) :
    Tree.apply string ⟨h.element.pushAll es :: parent :: stack, closed⟩ (.closing name start stop)
      = if h.name = name then .ok ⟨parent.pushAll [⟨h.name, h.ns, h.localName, h.attrs,
          if es = [] then slice string h.bodyIndex start else [], h.bodyIndex, es⟩] :: stack, closed⟩
        else .error (.unmatchedClosingTag stop) := by
  rw [Tree.apply]
  by_cases hname : h.name = name
  · rw [if_pos hname]
    cases es with
    | nil => exact if_neg (not_not.mpr hname)
    | cons e es => exact if_neg (not_not.mpr hname)
  · rw [if_neg hname]
    exact if_pos hname

/-- A tag, what is built within, and the closing tag of the same name. -/
theorem builds_paired (t : OpenTag) (i start stop : Nat) (h : Builds string tags elements fit) :
    Builds string (.opening (t.read i) :: (tags ++ [.closing t.name start stop]))
      [t.element (if elements = [] then slice string i start else []) elements]
      (t.Fits ∧ fit) := by
  intro parent stack closed
  rw [List.foldlM_cons]
  have hopen : Tree.apply string ⟨parent :: stack, closed⟩ (.opening (t.read i))
      = .ok ⟨(t.read i).element :: parent :: stack, closed⟩ := rfl
  rw [hopen]
  show (∃ es, List.foldlM (Tree.apply string) _ (tags ++ _) = _ ∧ _) ∨
    ((∃ e, List.foldlM (Tree.apply string) _ (tags ++ _) = _) ∧ _)
  rw [List.foldlM_append]
  obtain ⟨es, hrun, hlen, hiff⟩ | ⟨⟨e, herror⟩, hfit⟩ :=
    h (t.read i).element (parent :: stack) closed
  · have hclosing : Tree.apply string ⟨(t.read i).element.pushAll es :: parent :: stack, closed⟩
        (.closing t.name start stop) = _ := apply_closing start stop
    have hnil : es = [] ↔ elements = [] := by
      rw [← List.length_eq_zero_iff, ← List.length_eq_zero_iff, hlen]
    rw [hrun]
    show (∃ es', List.foldlM (Tree.apply string) _ [_] = _ ∧ _) ∨
      ((∃ e, List.foldlM (Tree.apply string) _ [_] = _) ∧ _)
    rw [List.foldlM_cons, hclosing]
    by_cases hname : (t.read i).name = t.name
    · rw [if_pos hname]
      refine Or.inl ⟨_, rfl, rfl, ?_⟩
      simp only [hnil]
      rw [bareAll, bareAll, List.cons.injEq, and_iff_left rfl, ← hiff, ← t.read_iff i]
      exact bare_iff t (t.read i) _ _ es elements
    · rw [if_neg hname]
      exact Or.inr ⟨⟨_, rfl⟩, fun h => hname ((t.read_iff i).mpr h.1).name⟩
  · rw [herror]
    exact Or.inr ⟨⟨e, rfl⟩, fun h => hfit h.2⟩

end Building

/-! ## The scanner on a document -/

section Scanning

variable {string before rest : JsString} {s : Scanner}

/-- The scanner goes over `u`, and its tags build the elements. -/
def Scans (string before u : JsString) (elements : List Element) (fit : Prop) : Prop :=
  ∀ s, Outside s → ∃ s' tags, Runs string before u s s' tags ∧ Outside s' ∧
    Builds string tags elements fit

theorem scans_append {u v : JsString} {elements elements' : List Element} {fit fit' : Prop}
    (hu : Scans string before u elements fit) (hv : Scans string (before ++ u) v elements' fit') :
    Scans string before (u ++ v) (elements ++ elements') (fit ∧ fit') := by
  intro s hs
  obtain ⟨s₁, tags, hrun, hs₁, hbuilds⟩ := hu s hs
  obtain ⟨s₂, tags', hrest, hs₂, hbuilds'⟩ := hv s₁ hs₁
  exact ⟨s₂, _, runs_append hrun hrest, hs₂, builds_append hbuilds hbuilds'⟩

theorem scans_text {u : JsString} (hu : '<'.toNat ∉ u) : Scans string before u [] True :=
  fun s hs => ⟨s, [], runs_text hs hu, hs, builds_nil⟩

/-- `u` follows `before` in the string. -/
def At (string before u : JsString) : Prop := ∃ rest, string = before ++ (u ++ rest)

theorem At.left {u v : JsString} (h : At string before (u ++ v)) : At string before u := by
  obtain ⟨rest, h⟩ := h
  exact ⟨v ++ rest, by rw [h, List.append_assoc]⟩

theorem At.right {u v : JsString} (h : At string before (u ++ v)) : At string (before ++ u) v := by
  obtain ⟨rest, h⟩ := h
  exact ⟨rest, by rw [h, List.append_assoc, List.append_assoc]⟩

theorem scans_gap {gap : List Piece} (hclean : ∀ c ∈ gap.flatMap Piece.comments, c.Clean)
    (h : At string before (gap.flatMap Piece.print)) :
    Scans string before (gap.flatMap Piece.print) [] True := by
  induction gap generalizing before with
  | nil => exact scans_text List.not_mem_nil
  | cons piece gap ih =>
      rw [List.flatMap_cons, List.forall_mem_append] at hclean
      rw [List.flatMap_cons] at h
      have hpiece : Scans string before piece.print [] True := by
        cases piece with
        | text u hu => exact scans_text hu
        | comment c =>
            intro s hs
            obtain ⟨rest, hstring⟩ := h.left
            obtain ⟨s', hrun, hs'⟩ := runs_comment (hclean.1 c List.mem_cons_self) hs hstring
            exact ⟨s', [], hrun, hs', builds_nil⟩
      have hboth := scans_append hpiece (ih hclean.2 h.right)
      rw [and_true] at hboth
      exact hboth

theorem scans_selfClosing (t : OpenTag) (h : At string before t.printSelfClosing) :
    Scans string before t.printSelfClosing [t.element [] []] t.Fits := by
  intro s hs
  obtain ⟨rest, hstring⟩ := h
  obtain ⟨s', hrun, hs'⟩ := runs_selfClosing t hs hstring
  exact ⟨s', _, hrun, hs', builds_selfClosing t _⟩

/-- An element with what stands in it. -/
theorem scans_paired (t : OpenTag) {body : JsString} {elements : List Element} {fit : Prop}
    (hbody : Scans string (before ++ t.printOpening) body elements fit)
    (h : At string before (t.printOpening ++ (body ++ t.printClosing))) :
    Scans string before (t.printOpening ++ (body ++ t.printClosing))
      [t.element (if elements = [] then body else []) elements] (t.Fits ∧ fit) := by
  intro s hs
  obtain ⟨_, hstring⟩ := h.left
  obtain ⟨s₁, hopen, hs₁⟩ := runs_opening t hs hstring
  obtain ⟨s₂, tags, hrun, hs₂, hbuilds⟩ := hbody s₁ hs₁
  obtain ⟨_, hbehind⟩ := h.right.left
  have hslice : slice string (before ++ t.printOpening).length
      (before ++ t.printOpening ++ body).length = body :=
    slice_eq hbehind rfl List.length_append
  obtain ⟨_, hclosing⟩ := h.right.right
  obtain ⟨s₃, hclose, hs₃⟩ := runs_closing t hs₂ hclosing
  have hpaired := builds_paired t (before ++ t.printOpening).length
    (before ++ t.printOpening ++ body).length
    ((before ++ t.printOpening ++ body).length + t.name.length + 2) hbuilds
  rw [hslice] at hpaired
  exact ⟨s₃, _, runs_append hopen (runs_append hrun hclose), hs₃, hpaired⟩

theorem Forest.elements_ne (f : Forest true) : f.elements ≠ [] := by
  cases f with
  | selfClosing gap t next => exact List.cons_ne_nil _ _
  | leaf gap t text h next => exact List.cons_ne_nil _ _
  | parent gap t children next => exact List.cons_ne_nil _ _

/-- An element between what precedes it and what follows. -/
theorem scans_node {b : Bool} {gap : List Piece} {u : JsString} {e : Element} {next : Forest b}
    {fit : Prop} (hgap : ∀ c ∈ gap.flatMap Piece.comments, c.Clean)
    (h : At string before (gap.flatMap Piece.print ++ (u ++ next.print)))
    (hu : Scans string (before ++ gap.flatMap Piece.print) u [e] fit)
    (hnext : Scans string (before ++ gap.flatMap Piece.print ++ u) next.print next.elements
      (∀ t ∈ next.tags, t.Fits)) :
    Scans string before (gap.flatMap Piece.print ++ (u ++ next.print)) (e :: next.elements)
      (fit ∧ ∀ t ∈ next.tags, t.Fits) := by
  have hall := scans_append (scans_gap hgap h.left) (scans_append hu hnext)
  rw [true_and] at hall
  exact hall

theorem scans_forest {b : Bool} (f : Forest b) (hclean : ∀ c ∈ f.comments, c.Clean)
    (h : At string before f.print) :
    Scans string before f.print f.elements (∀ t ∈ f.tags, t.Fits) := by
  induction f generalizing before with
  | last gap =>
      have hnone : (∀ t ∈ (Forest.last gap).tags, t.Fits) ↔ True :=
        iff_of_true (fun _ h => absurd h List.not_mem_nil) trivial
      rw [hnone]
      exact scans_gap hclean h
  | selfClosing gap t next ih =>
      rw [Forest.comments, List.forall_mem_append] at hclean
      rw [Forest.tags, List.forall_mem_cons]
      have htag := scans_selfClosing t h.right.left
      exact scans_node hclean.1 h htag (ih hclean.2 h.right.right)
  | leaf gap t text htext next ih =>
      rw [Forest.comments, List.forall_mem_append] at hclean
      rw [Forest.tags, List.forall_mem_cons]
      have hprint : (Forest.leaf gap t text htext next).print = gap.flatMap Piece.print ++
          ((t.printOpening ++ (text ++ t.printClosing)) ++ next.print) := by
        simp only [Forest.print, List.append_assoc]
      rw [hprint] at h ⊢
      have hpaired := scans_paired t (scans_text htext) h.right.left
      rw [and_true] at hpaired
      exact scans_node hclean.1 h hpaired (ih hclean.2 h.right.right)
  | parent gap t children next ihc ih =>
      rw [Forest.comments, List.forall_mem_append, List.forall_mem_append] at hclean
      rw [Forest.tags, List.forall_mem_cons, List.forall_mem_append, ← and_assoc]
      have hprint : (Forest.parent gap t children next).print = gap.flatMap Piece.print ++
          ((t.printOpening ++ (children.print ++ t.printClosing)) ++ next.print) := by
        simp only [Forest.print, List.append_assoc]
      rw [hprint] at h ⊢
      have hbody := ihc hclean.2.1 h.right.left.right.left
      have hpaired := scans_paired t hbody h.right.left
      rw [if_neg children.elements_ne] at hpaired
      exact scans_node hclean.1 h hpaired (ih hclean.2.2 h.right.right)

end Scanning

/-! ## The parser on a document -/

theorem scans_document (d : Document) (hclean : ∀ c ∈ d.content.comments, c.Clean) :
    Scans d.print [] d.print d.content.elements (∀ t ∈ d.content.tags, t.Fits) := by
  have h : At d.print [] d.print := ⟨[], (List.append_nil _).symm⟩
  have hcontent := scans_forest d.content hclean (h.right : At d.print _ d.content.print)
  have hdeclaration : Scans d.print [] ((d.declaration.map declaration).getD []) [] True := by
    cases hd : d.declaration with
    | none => exact scans_text List.not_mem_nil
    | some a =>
        intro s hs
        obtain ⟨rest, hstring⟩ : At d.print [] (declaration a) := by
          have hleft := h.left
          rw [hd] at hleft
          exact hleft
        obtain ⟨s', hrun, hs'⟩ := runs_declaration a hs hstring
        exact ⟨s', [], hrun, hs', builds_nil⟩
  have hall := scans_append hdeclaration hcontent
  rw [true_and] at hall
  exact hall

/-- A printed document whose comments are passed is parsed to its own elements just when the
offsets in its tags fit in the scanner's fields. -/
theorem parseXml_print_iff (d : Document) (hclean : ∀ c ∈ d.content.comments, c.Clean) :
    d.Restored ↔ ∀ t ∈ d.content.tags, t.Fits := by
  obtain ⟨s, tags, hrun, hs, hbuilds⟩ := scans_document d hclean start ⟨rfl, rfl⟩
  have hscan := hrun []
  rw [List.append_nil] at hscan
  have htags : tagsOf d.print = tags := by
    rw [tagsOf]
    exact (congrArg Prod.fst hscan).trans (List.append_nil _)
  have hend : scanEnd d.print = .ok s := congrArg Prod.snd hscan
  rw [Document.Restored, parseXml_eq, htags, hend]
  obtain ⟨es, hfold, -, hiff⟩ | ⟨⟨e, herror⟩, hfit⟩ := hbuilds root [] none
  · rw [hfold, ← hiff]
    have hfinish : ∃ e, finish d.print s ⟨[root.pushAll es], none⟩ = .ok e ∧ e.children = es := by
      rw [finish, if_neg (not_not.mpr hs.1)]
      refine ⟨_, rfl, ?_⟩
      show (if es = [] then _ else root.pushAll es).children = es
      split_ifs <;> rfl
    obtain ⟨e, hfinish, hchildren⟩ := hfinish
    constructor
    · rintro ⟨e', he', hsame⟩
      obtain rfl : e = e' := Except.ok.inj (hfinish.symm.trans he')
      rw [← hchildren]
      exact hsame
    · intro h
      exact ⟨e, hfinish, by rw [hchildren, h]⟩
  · rw [herror]
    refine iff_of_false ?_ hfit
    rintro ⟨e', he', -⟩
    cases he'

theorem xmlSpace_nil : ∀ c ∈ ([] : JsString), xmlSpace c = true := by decide

/-- `<soap:Body xsi:id = "1">`. -/
def bodyTag : OpenTag where
  attrs := [⟨js " ", js "xsi:id", js " ", js " ", '"'.toNat, js "1", by decide, by decide, by decide,
    by decide, by decide, by decide, by decide, by decide⟩]
  after := []
  attrs_before := by decide
  attrs_unit := by decide
  after_space := xmlSpace_nil
  name := js "soap:Body"
  name_ne := by decide
  name_unit := by decide
  name_colon := by decide

def quotedComment : Comment := ⟨js " \"it's\" ", by decide⟩

theorem parseXml_print_body :
    Document.Restored ⟨none, .leaf [.comment quotedComment] bodyTag (js "a > b") (by decide)
      (.last [.text (js "\n") (by decide)])⟩ := by
  refine (parseXml_print_iff _ ?_).mpr ?_
  · intro c hc
    obtain rfl := List.mem_singleton.mp hc
    rw [Comment.Clean, if_neg (by decide)]
    rfl
  · intro t ht
    obtain rfl := List.mem_singleton.mp ht
    exact ⟨fun _ => by decide, fun _ => by decide, fun h => absurd (by decide) h⟩

/-- An apostrophe in a comment, and a name of 255 units with white space behind it. -/
theorem print_lost :
    ¬ Document.Restored ⟨none, .selfClosing [.comment ⟨js " it's ", by decide⟩] bodyTag (.last [])⟩ ∧
      ((parseXml ('<'.toNat :: (List.replicate 255 'a'.toNat ++ js " />"))).toOption.map
        fun e => e.children.map fun e => e.name.length) = some [256] := by
  refine ⟨?_, by decide +kernel⟩
  rintro ⟨e, he, -⟩
  have herror : parseXml (Document.print ⟨none, .selfClosing [.comment ⟨js " it's ", by decide⟩]
      bodyTag (.last [])⟩) = .error (.unclosedToken 7) := rfl
  rw [herror] at he
  cases he

end Xml

end GenieAcs
