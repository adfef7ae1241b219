import GenieAcs.XmlAttrs

/-!
# The XML parser

`parseXml` is one loop over the code units. Its scanner packs what it is in, and the
offsets of the first colon and the first white space within a tag, into one number
with eight bits for each. The tags it meets go to a stack of elements with a synthetic
root at the bottom. `parseXml_eq` takes the two apart: the scanner does not depend on
the stack, so a text has one list of tags (`tagsOf`).
-/

namespace GenieAcs

namespace Xml

/-! ## Elements -/

structure Element where
  name : JsString
  ns : JsString
  localName : JsString
  attrs : JsString
  text : JsString
  bodyIndex : Nat
  children : List Element

/-- The elements that are open, the last one first; `closedRoot` is the synthetic
root when a tag has closed it. An element is among the children of its parent once
it is closed. -/
structure Tree where
  stack : List Element
  closedRoot : Option Element

/-- What is known of an element at the end of its first tag. -/
structure Header where
  name : JsString
  ns : JsString
  localName : JsString
  attrs : JsString
  bodyIndex : Nat

def Header.element (h : Header) : Element :=
  ⟨h.name, h.ns, h.localName, h.attrs, [], h.bodyIndex, []⟩

inductive Tag where
  | opening (h : Header)
  | selfClosing (h : Header)
  | closing (name : JsString) (start i : Nat)

def Element.push (parent e : Element) : Element := { parent with children := parent.children ++ [e] }

def Tree.apply (string : JsString) (t : Tree) : Tag → Except XmlError Tree
  | .opening h =>
      match t.stack with
      | [] => .error .typeError
      | stack => .ok { t with stack := h.element :: stack }
  | .selfClosing h =>
      match t.stack with
      | [] => .error .typeError
      | parent :: stack => .ok { t with stack := parent.push h.element :: stack }
  | .closing name start i =>
      match t.stack with
      | [] => .error .typeError
      | e :: stack =>
          if e.name ≠ name then .error (.unmatchedClosingTag i)
          else
            let e := if e.children = [] then { e with text := slice string e.bodyIndex start } else e
            match stack with
            | [] => .ok { stack := [], closedRoot := some e }
            | parent :: stack => .ok { t with stack := parent.push e :: stack }

/-! ## Scanning -/

structure Scanner where
  state1 : Nat
  state1Index : Nat
  state2 : Nat
  state2Index : Nat

def kindOf (state : Nat) : Nat := state &&& 0xff

def colonOf (state : Nat) : Nat := (state >>> 8) &&& 0xff

def spaceOf (state : Nat) : Nat := (state >>> 16) &&& 0xff

def lessThan : Nat := 1

def singleQuote : Nat := 2

def doubleQuote : Nat := 3

/-- Back to the state before. -/
def Scanner.back (s : Scanner) : Scanner := ⟨s.state2, s.state2Index, 0, s.state2Index⟩

/-- Into a state at index `i`. -/
def Scanner.enter (s : Scanner) (state i : Nat) : Scanner := ⟨state, i, s.state1, s.state1Index⟩

def scanQuote (quote i : Nat) (s : Scanner) : Scanner :=
  if kindOf s.state1 = quote then s.back
  else if kindOf s.state1 = lessThan then s.enter quote i
  else s

def scanLessThan (i : Nat) (s : Scanner) : Scanner :=
  if kindOf s.state1 = 0 then s.enter lessThan i else s

def scanColon (i : Nat) (s : Scanner) : Scanner :=
  if kindOf s.state1 = lessThan ∧ colonOf s.state1 = 0 then
    { s with state1 := s.state1 ^^^ (((i - s.state1Index) &&& 0xff) <<< 8) }
  else s

def scanSpace (i : Nat) (s : Scanner) : Scanner :=
  if kindOf s.state1 = lessThan ∧ spaceOf s.state1 = 0 then
    { s with state1 := s.state1 ^^^ (((i - s.state1Index) &&& 0xff) <<< 16) }
  else s

/-- `string.startsWith(text, i)`. -/
def startsAt (string text : JsString) (i : Nat) : Bool := text.isPrefixOf (string.drop i)

/-- `string.endsWith(text, i)`. -/
def endsAt (string text : JsString) (i : Nat) : Bool := text.isSuffixOf (string.take i)

/-- The header of an element whose first tag goes from `start` to `i`. -/
def headerOf (string : JsString) (start i colon space selfClosing : Nat) : Header :=
  let name :=
    if space = 0 then slice string (start + 1) (i - selfClosing)
    else slice string (start + 1) (start + space)
  let split := colon ≠ 0 ∧ (space = 0 ∨ colon < space)
  { name := name
    ns := if split then name.take (colon - 1) else []
    localName := if split then name.drop colon else name
    attrs := if space ≠ 0 then slice string (start + space + 1) (i - selfClosing) else []
    bodyIndex := i + 1 }

/-- The tag that ends at `i` unless its second unit is `!` or `?`. -/
def tagAt (string : JsString) (i : Nat) (s : Scanner) : Tag :=
  let start := s.state1Index
  let space := spaceOf s.state1
  if string[start + 1]? = some '/'.toNat then
    .closing (if space = 0 then slice string (start + 2) i else slice string (start + 2) (start + space))
      start i
  else if string[i - 1]? = some '/'.toNat then
    .selfClosing (headerOf string start i (colonOf s.state1) space 1)
  else .opening (headerOf string start i (colonOf s.state1) space 0)

def scanGreaterThan (string : JsString) (i : Nat) (s : Scanner) :
    Except XmlError (Scanner × Option Tag) :=
  if kindOf s.state1 ≠ lessThan then .ok (s, none)
  else if string[s.state1Index + 1]? = some '!'.toNat then
    if startsAt string (js "![CDATA[") (s.state1Index + 1) then
      if endsAt string (js "]]") i then .error (.cdataNotSupported i) else .ok (s, none)
    else if startsAt string (js "!--") (s.state1Index + 1) then
      if endsAt string (js "--") i then .ok (s.back, none) else .ok (s, none)
    else .ok (s, none)
  else if string[s.state1Index + 1]? = some '?'.toNat then
    if string[i - 1]? = some '?'.toNat then .ok (s.back, none) else .ok (s, none)
  else .ok (s.back, some (tagAt string i s))

/-- The scanner's part of one round of the loop. -/
def scan (string : JsString) (i c : Nat) (s : Scanner) : Except XmlError (Scanner × Option Tag) :=
  if c = '\''.toNat then .ok (scanQuote singleQuote i s, none)
  else if c = '"'.toNat then .ok (scanQuote doubleQuote i s, none)
  else if c = '<'.toNat then .ok (scanLessThan i s, none)
  else if c = ':'.toNat then .ok (scanColon i s, none)
  else if Attribute.xmlSpace c then .ok (scanSpace i s, none)
  else if c = '>'.toNat then scanGreaterThan string i s
  else .ok (s, none)

/-! ## Parsing -/

/-- The loop from index `i` on, over the rest of the string. -/
def parseFrom (string : JsString) : Nat → JsString → Scanner → Tree → Except XmlError (Scanner × Tree)
  | _, [], s, t => .ok (s, t)
  | i, c :: cs, s, t => do
      let (s, tag) ← scan string i c s
      let t ← match tag with
        | none => .ok t
        | some tag => t.apply string tag
      parseFrom string (i + 1) cs s t

def root : Element := ⟨js "root", [], js "root", [], [], 0, []⟩

/-- What follows the loop. -/
def finish (string : JsString) (s : Scanner) (t : Tree) : Except XmlError Element :=
  if s.state1 ≠ 0 then .error (.unclosedToken s.state1Index)
  else
    match t.stack with
    | e :: _ :: _ => .error (.unclosedXmlElement e.bodyIndex)
    | stack =>
        let e := stack.head?.getD (t.closedRoot.getD root)
        .ok (if e.children = [] then { e with text := string } else e)

def start : Scanner := ⟨0, 0, 0, 0⟩

def parseXml (string : JsString) : Except XmlError Element := do
  let (s, t) ← parseFrom string 0 string start ⟨[root], none⟩
  finish string s t

end Xml

end GenieAcs
