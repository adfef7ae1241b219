import GenieAcs.Lib.Utf8
import GenieAcs.XmlPrefixes

/-!
# The stream of an XMPP client

`_onData` decodes and parses each chunk of the socket on its own. The chunks of a
stream are where TCP cuts it, so what comes out is that of the stanzas just where each
chunk is one whole stanza (`onData_iff`): a part of a stanza does not parse, and of two
stanzas in one chunk the first takes the tag of the second with it.
-/

namespace GenieAcs

namespace Xmpp

open Xml Unicode

/-! ## The client -/

/-- The ids of `_iqStanzaCallbacks`, and if there is a listener for data. -/
structure Client where
  waiting : List JsString
  listening : Bool

/-- What is emitted, and the calls that resolve a request. -/
inductive Event where
  | stanza (c : Element) (s : JsString)
  | resolve (id rawRes : JsString) (res : Element)
  | close
  | error (e : XmlError)

/-- Each element with the text from its body to the body of the next. -/
def stanzasOf (str : JsString) : List Element → List (Element × JsString)
  | [] => []
  | [c] => [(c, slice str c.bodyIndex str.length)]
  | c :: d :: cs => (c, slice str c.bodyIndex d.bodyIndex) :: stanzasOf str (d :: cs)

/-- The call of a callback, which takes it from the map. -/
def answer (waiting : List JsString) (c : Element) (s : JsString) :
    Except XmlError (List JsString × List Event) :=
  if c.name = js "iq" then do
    let attrs ← Attribute.parseAttrs c.attrs
    match attrs.find? fun a => a.name = js "id" with
    | some id =>
        if id.value ∈ waiting then
          .ok (waiting.filter (· ≠ id.value), [.resolve id.value s c])
        else .ok (waiting, [])
    | none => .ok (waiting, [])
  else .ok (waiting, [])

/-- The loop over the elements of a chunk, and the error that ends it. -/
def deliver : List JsString → List (Element × JsString) →
    List JsString × List Event × Option XmlError
  | waiting, [] => (waiting, [], none)
  | waiting, (c, s) :: rest =>
      match answer waiting c s with
      | .error e => (waiting, [], some e)
      | .ok (waiting, resolved) =>
          let (waiting, events, failed) := deliver waiting rest
          (waiting, resolved ++ .stanza c s :: events, failed)

def streamEnd : JsString := js "</stream:stream>"

/-- The text of a chunk, and if it closes the stream. -/
def textOf (chunk : List Nat) : JsString × Bool :=
  let str := decode chunk
  if streamEnd.isSuffixOf str then (str.take (str.length - 16), true) else (str, false)

def onData (client : Client) (chunk : List Nat) : Client × List Event :=
  if client.listening then
    let (str, close) := textOf chunk
    match parseXml str with
    | .error e => ({ client with listening := false }, [.error e])
    | .ok xml =>
        match deliver client.waiting (stanzasOf str xml.children) with
        | (waiting, events, some e) => (⟨waiting, false⟩, events ++ [.error e])
        | (waiting, events, none) =>
            if close then (⟨waiting, false⟩, events ++ [.close]) else (⟨waiting, true⟩, events)
  else (client, [])

/-- What comes out of the chunks. -/
def receive : Client → List (List Nat) → List Event
  | _, [] => []
  | client, chunk :: chunks => (onData client chunk).2 ++ receive (onData client chunk).1 chunks

def Event.stanza? : Event → Option (Element × JsString)
  | .stanza c s => some (c, s)
  | _ => none

def Event.answer? : Event → Option (JsString × JsString × Element)
  | .resolve id rawRes res => some (id, rawRes, res)
  | _ => none

def stanzas (events : List Event) : List (Element × JsString) := events.filterMap Event.stanza?

def answers (events : List Event) : List (JsString × JsString × Element) :=
  events.filterMap Event.answer?

/-! ## Streams -/

/-- What the text of every element begins and ends with. The element is not the stream. -/
structure Stanza where
  text : List Char
  first : text.head? = some '<'
  second : ∀ c ∈ text[1]?, c ∉ ['/', '!', '?']
  last : text.getLast? = some '>'
  inner : ¬ streamEnd <:+ text.flatMap utf16

def Stanza.units (s : Stanza) : JsString := s.text.flatMap utf16

def Stanza.bytes (s : Stanza) : List Nat := s.text.flatMap utf8

/-- The chunks give what the stanzas give in chunks of their own, and no error. -/
def Delivered (waiting : List JsString) (ss : List Stanza) (chunks : List (List Nat)) : Prop :=
  let whole := receive ⟨waiting, true⟩ (ss.map Stanza.bytes)
  stanzas (receive ⟨waiting, true⟩ chunks) = stanzas whole
    ∧ answers (receive ⟨waiting, true⟩ chunks) = answers whole
    ∧ ∀ e, .error e ∉ receive ⟨waiting, true⟩ chunks

/-- The attributes can be read if it is an `iq`. -/
def Answerable (c : Element) : Prop :=
  c.name = js "iq" → ∃ attrs, Attribute.parseAttrs c.attrs = .ok attrs

/-- The stanza is parsed where it is alone. -/
def Stanza.Accepted (s : Stanza) : Prop :=
  ∃ x, parseXml s.units = .ok x ∧ ∀ c ∈ x.children, Answerable c

/-! ## One chunk -/

section Chunks

variable {waiting : List JsString} {str p q v : JsString} {x y : Element} {chunk : List Nat}
  {l : List (Element × JsString)}

theorem stanzasOf_fst (str : JsString) (cs : List Element) :
    (stanzasOf str cs).map Prod.fst = cs := by
  induction cs with
  | nil => rfl
  | cons c cs ih =>
      cases cs with
      | nil => rfl
      | cons d cs => rw [stanzasOf, List.map_cons, ih]

theorem stanzas_append (es fs : List Event) : stanzas (es ++ fs) = stanzas es ++ stanzas fs :=
  List.filterMap_append

/-- An answer adds no stanza. -/
theorem answer_cases (waiting : List JsString) (c : Element) (s : JsString) :
    (¬ Answerable c ∧ ∃ e, answer waiting c s = .error e) ∨
      (Answerable c ∧ ∃ waiting' es, answer waiting c s = .ok (waiting', es) ∧ stanzas es = []
        ∧ ∀ e, .error e ∉ es) := by
  unfold answer
  by_cases hiq : c.name = js "iq"
  · rw [if_pos hiq]
    cases hattrs : Attribute.parseAttrs c.attrs with
    | error e =>
        refine .inl ⟨fun h => ?_, e, rfl⟩
        obtain ⟨attrs, hok⟩ := h hiq
        cases hattrs.symm.trans hok
    | ok attrs =>
        refine .inr ⟨fun _ => ⟨attrs, hattrs⟩, ?_⟩
        simp only [bind, Except.bind]
        split
        · next id _ =>
            by_cases hid : id.value ∈ waiting
            · exact ⟨_, [.resolve id.value s c], if_pos hid, rfl, by simp⟩
            · exact ⟨waiting, [], if_neg hid, rfl, by simp⟩
        · exact ⟨waiting, [], rfl, rfl, by simp⟩
  · rw [if_neg hiq]
    exact .inr ⟨fun h => absurd h hiq, waiting, [], rfl, rfl, by simp⟩

/-- The stanzas come out in order, all of them if the attributes of each can be read. -/
theorem deliver_spec (waiting : List JsString) (l : List (Element × JsString)) :
    ∃ rest, l = stanzas (deliver waiting l).2.1 ++ rest
      ∧ ((deliver waiting l).2.2 = none ↔ rest = [])
      ∧ ((deliver waiting l).2.2 = none ↔ ∀ c ∈ l.map Prod.fst, Answerable c)
      ∧ ∀ e, .error e ∉ (deliver waiting l).2.1 := by
  induction l generalizing waiting with
  | nil => exact ⟨[], rfl, by simp [deliver], by simp [deliver], by simp [deliver]⟩
  | cons f l ih =>
      obtain ⟨c, s⟩ := f
      rw [List.map_cons, List.forall_mem_cons]
      obtain ⟨hc, e, hanswer⟩ | ⟨hc, waiting', es, hanswer, hnone, herror⟩ :=
        answer_cases waiting c s
      · rw [deliver, hanswer]
        exact ⟨(c, s) :: l, rfl, by simp, by simp [hc], by simp⟩
      · obtain ⟨rest, hl, hrest, hall, hclean⟩ := ih waiting'
        have hdeliver : deliver waiting ((c, s) :: l) = ((deliver waiting' l).1,
            es ++ .stanza c s :: (deliver waiting' l).2.1, (deliver waiting' l).2.2) := by
          rw [deliver, hanswer]
        rw [hdeliver]
        refine ⟨rest, ?_, hrest, ?_, ?_⟩
        · rw [stanzas_append, hnone, List.nil_append]
          exact congrArg _ hl
        · rw [hall]
          exact ⟨fun h => ⟨hc, h⟩, fun h => h.2⟩
        · intro e hmem
          obtain hmem | hmem := List.mem_append.mp hmem
          · exact herror e hmem
          · obtain h | hmem := List.mem_cons.mp hmem
            · cases h
            · exact hclean e hmem

/-- A chunk that is parsed. -/
structure Parsed (str : JsString) (x : Element) : Prop where
  parse : parseXml str = .ok x
  answerable : ∀ c ∈ x.children, Answerable c

/-- What comes out of a chunk without an error. -/
theorem onData_parsed {close : Bool} (htext : textOf chunk = (str, close)) (h : Parsed str x) :
    ∃ waiting' es, onData ⟨waiting, true⟩ chunk = (⟨waiting', !close⟩, es)
      ∧ stanzas es = stanzasOf str x.children ∧ ∀ e, .error e ∉ es := by
  obtain ⟨rest, hl, hrest, hall, hclean⟩ := deliver_spec waiting (stanzasOf str x.children)
  have hnone := hall.mpr (by rw [stanzasOf_fst]; exact h.answerable)
  rw [hrest.mp hnone, List.append_nil] at hl
  rw [onData, if_pos rfl, htext]
  simp only [h.parse]
  rcases hdeliver : deliver waiting (stanzasOf str x.children) with ⟨waiting', es, failed⟩
  rw [hdeliver] at hnone hl hclean
  obtain rfl : failed = none := hnone
  cases close with
  | false => exact ⟨waiting', es, rfl, hl.symm, hclean⟩
  | true =>
      refine ⟨waiting', es ++ [.close], rfl, ?_, by simpa using hclean⟩
      rw [stanzas_append, hl]
      exact List.append_nil _

/-- What comes out of a chunk with an error: fewer stanzas than it has. -/
theorem onData_failed {close : Bool} (htext : textOf chunk = (str, close))
    (h : ∀ x, ¬ Parsed str x) : ∃ waiting' es e,
      onData ⟨waiting, true⟩ chunk = (⟨waiting', false⟩, es) ∧ .error e ∈ es
        ∧ (∀ x, parseXml str = .ok x →
          ∃ rest, rest ≠ [] ∧ stanzasOf str x.children = stanzas es ++ rest)
        ∧ ((∀ x, parseXml str ≠ .ok x) → stanzas es = []) := by
  rw [onData, if_pos rfl, htext]
  cases hparse : parseXml str with
  | error e =>
      simp only [hparse]
      exact ⟨waiting, [.error e], e, rfl, List.mem_cons_self, (fun x hx => nomatch hx),
        fun _ => rfl⟩
  | ok x =>
      simp only [hparse]
      obtain ⟨rest, hl, hrest, hall, hclean⟩ := deliver_spec waiting (stanzasOf str x.children)
      rcases hdeliver : deliver waiting (stanzasOf str x.children) with ⟨waiting', es, failed⟩
      rw [hdeliver] at hl hrest hall
      cases failed with
      | none =>
          have hanswerable := hall.mp rfl
          rw [stanzasOf_fst] at hanswerable
          exact absurd ⟨hparse, hanswerable⟩ (h x)
      | some e =>
          refine ⟨waiting', es ++ [.error e], e, rfl, by simp, ?_, fun hx => absurd rfl (hx x)⟩
          intro y hy
          cases hy
          refine ⟨rest, (fun hnil => nomatch hrest.mpr hnil), ?_⟩
          have hes : stanzas (es ++ [.error e]) = stanzas es := by
            rw [stanzas_append]
            exact List.append_nil _
          rw [hes]
          exact hl

theorem textOf_cases (chunk : List Nat) :
    (textOf chunk = (decode chunk, false) ∧ ¬ streamEnd <:+ decode chunk)
      ∨ ∃ str, decode chunk = str ++ streamEnd ∧ textOf chunk = (str, true) := by
  unfold textOf
  simp only
  split_ifs with hend
  · obtain ⟨str, hstr⟩ := List.isSuffixOf_iff_suffix.mp hend
    have hlen : streamEnd.length = 16 := by decide
    refine .inr ⟨str, hstr.symm, ?_⟩
    rw [← hstr, List.length_append, hlen, Nat.add_sub_cancel, List.take_left]
  · exact .inl ⟨rfl, fun h => hend (List.isSuffixOf_iff_suffix.mpr h)⟩

/-! ## Two texts -/

theorem getElem?_stanzasOf (str : JsString) (cs : List Element) (k : ℕ) :
    (stanzasOf str cs)[k]? = cs[k]?.map fun c =>
      (c, slice str c.bodyIndex ((cs[k + 1]?.map Element.bodyIndex).getD str.length)) := by
  induction cs generalizing k with
  | nil => rfl
  | cons c cs ih =>
      cases cs with
      | nil => cases k <;> rfl
      | cons d cs =>
          cases k with
          | zero => rfl
          | succ k => exact ih k

theorem length_stanzasOf (str : JsString) (cs : List Element) :
    (stanzasOf str cs).length = cs.length := by
  rw [← List.length_map Prod.fst, stanzasOf_fst]

/-- The last element of a text has another body when more is added. -/
theorem stanzasOf_append (hx : parseXml p = .ok x) (hy : parseXml (p ++ v) = .ok y) (hv : v ≠ [])
    (hne : x.children ≠ []) : ∃ k, k < x.children.length ∧ k < y.children.length
      ∧ (stanzasOf p x.children)[k]? ≠ (stanzasOf (p ++ v) y.children)[k]? := by
  obtain ⟨more, hbodies, hmore⟩ := bodies_append hx hy
  obtain ⟨k, hk⟩ : ∃ k, x.children.length = k + 1 :=
    Nat.exists_eq_succ_of_ne_zero fun h => hne (List.length_eq_zero_iff.mp h)
  have hlen := congrArg List.length hbodies
  rw [bodies, bodies, List.length_append, List.length_map, List.length_map] at hlen
  refine ⟨k, by omega, by omega, fun heq => ?_⟩
  rw [getElem?_stanzasOf, getElem?_stanzasOf] at heq
  have hxk : k < x.children.length := by omega
  have hyk : k < y.children.length := by omega
  rw [List.getElem?_eq_getElem hxk, List.getElem?_eq_getElem hyk,
    List.getElem?_eq_none (by omega : x.children.length ≤ k + 1)] at heq
  obtain ⟨hc, hslice⟩ := Prod.mk.inj (Option.some.inj heq)
  have hbody : (x.children[k]).bodyIndex ≤ p.length :=
    (bodies_sound hx (List.mem_map_of_mem (List.getElem_mem hxk))).2.1
  have hlength := congrArg List.length hslice
  have hvlen := List.length_pos_iff.mpr hv
  rw [← hc, slice, slice, List.length_drop, List.length_take, List.length_drop, List.length_take,
    List.length_append] at hlength
  cases hnext : y.children[k + 1]? with
  | none =>
      rw [hnext] at hlength
      simp only [Option.map_none, Option.getD_none] at hlength
      omega
  | some d =>
      have hd : p.length < d.bodyIndex := by
        refine hmore _ ?_
        have hget : (bodies y)[k + 1]? = some d.bodyIndex := by
          rw [bodies, List.getElem?_map, hnext]
          rfl
        rw [hbodies, List.getElem?_append_right (by rw [bodies, List.length_map]; omega)] at hget
        exact List.mem_of_getElem? hget
      have hdle : d.bodyIndex ≤ (p ++ v).length :=
        (bodies_sound hy (List.mem_map_of_mem (List.mem_of_getElem? hnext))).2.1
      rw [hnext] at hlength
      rw [List.length_append] at hdle
      simp only [Option.map_none, Option.getD_none, Option.map_some, Option.getD_some] at hlength
      omega

/-- A text begins with the first tag of an element. -/
def Begins (p : JsString) : Prop := p.head? = some '<'.toNat ∧ ElementTag p

theorem Begins.front (h : Begins q) (hpq : p <+: q) (hp : p ≠ []) : Begins p := by
  obtain ⟨v, rfl⟩ := hpq
  obtain ⟨c, u, rfl⟩ := List.exists_cons_of_ne_nil hp
  refine ⟨h.1, fun d hd => h.2 d ?_⟩
  rw [List.getElem?_append_left (List.getElem?_eq_some_iff.mp hd).1]
  exact hd

theorem Begins.replaced (h : Begins p) : Begins (p ++ [replacement]) := by
  obtain ⟨c, u, rfl⟩ := List.exists_cons_of_ne_nil (fun hp : p = [] => by rw [hp] at h; cases h.1)
  refine ⟨h.1, fun d hd => ?_⟩
  cases u with
  | nil =>
      obtain rfl := Option.some.inj hd
      decide
  | cons d' u => exact h.2 d hd

/-- Texts that give the same stanzas, as far as they go, are the same. -/
theorem same_text {E R A : List (Element × JsString)} (hpq : p <+: q ∨ q <+: p) (hp : Begins p)
    (hq : Begins q) (hx : parseXml p = .ok x) (hlist : stanzasOf p x.children ++ A = E ++ R)
    (hparsed : ∀ y, parseXml q = .ok y →
      ∃ rest, stanzasOf q y.children = E ++ rest ∧ (rest ≠ [] → R = []))
    (hfailed : (∀ y, parseXml q ≠ .ok y) → E = [] ∧ R = []) : p = q := by
  have hxne := parseXml_first hp.1 hp.2 hx
  cases hy : parseXml q with
  | error e =>
      obtain ⟨rfl, rfl⟩ := hfailed fun y h => nomatch hy.symm.trans h
      have hnil := congrArg List.length (List.append_eq_nil_iff.mp hlist).1
      rw [length_stanzasOf] at hnil
      exact absurd (List.length_eq_zero_iff.mp hnil) hxne
  | ok y =>
      have hyne := parseXml_first hq.1 hq.2 hy
      obtain ⟨rest, hE, hR⟩ := hparsed y hy
      by_contra hne
      obtain ⟨k, hkx, hky, hdiff⟩ : ∃ k, k < x.children.length ∧ k < y.children.length
          ∧ (stanzasOf p x.children)[k]? ≠ (stanzasOf q y.children)[k]? := by
        obtain ⟨v, rfl⟩ | ⟨v, rfl⟩ := hpq
        · exact stanzasOf_append hx hy (fun hv => hne (by rw [hv, List.append_nil])) hxne
        · obtain ⟨k, hky, hkx, hdiff⟩ :=
            stanzasOf_append hy hx (fun hv => hne (by rw [hv, List.append_nil])) hyne
          exact ⟨k, hkx, hky, hdiff.symm⟩
      have hget := congrArg (fun l => l[k]?) hlist
      simp only [List.getElem?_append_left (length_stanzasOf p x.children ▸ hkx)] at hget
      by_cases hkE : k < E.length
      · rw [List.getElem?_append_left hkE] at hget
        rw [hE, List.getElem?_append_left hkE] at hdiff
        exact hdiff hget
      · have hrest : rest ≠ [] := by
          rintro rfl
          have hlen := congrArg List.length hE
          rw [length_stanzasOf, List.append_nil] at hlen
          omega
        have hlen := congrArg List.length hlist
        rw [hR hrest, List.length_append, List.append_nil, length_stanzasOf] at hlen
        omega

theorem slice_last {i j : ℕ} (h : slice p i j ≠ []) (hj : j ≤ p.length) :
    (slice p i j).getLast? = p[j - 1]? := by
  have hlen := List.length_pos_iff.mpr h
  rw [slice, List.length_drop, List.length_take] at hlen
  rw [List.getLast?_eq_getElem?, slice, List.getElem?_drop, List.length_drop, List.length_take,
    List.getElem?_take, if_pos (by omega)]
  congr 1
  omega

/-- The text of a stanza ends with a tag. -/
theorem stanzasOf_last (hx : parseXml p = .ok x) (hp : p.getLast? = some '>'.toNat)
    {f : Element × JsString} (hf : f ∈ stanzasOf p x.children) :
    f.2 = [] ∨ f.2.getLast? = some '>'.toNat := by
  obtain ⟨k, hk⟩ := List.mem_iff_getElem?.mp hf
  rw [getElem?_stanzasOf] at hk
  obtain ⟨c, hc, rfl⟩ := Option.map_eq_some_iff.mp hk
  by_cases hnil : slice p c.bodyIndex
      ((x.children[k + 1]?.map Element.bodyIndex).getD p.length) = []
  · exact .inl hnil
  refine .inr ?_
  cases hnext : x.children[k + 1]? with
  | none =>
      rw [hnext] at hnil
      have hlast := slice_last hnil le_rfl
      rw [List.getLast?_eq_getElem?] at hp
      exact hlast.trans hp
  | some d =>
      rw [hnext] at hnil
      obtain ⟨-, hd, hget⟩ := bodies_sound hx (List.mem_map_of_mem (List.mem_of_getElem? hnext))
      exact (slice_last hnil hd).trans hget

/-- A text that ends with no tag ends its last stanza. -/
theorem stanzasOf_open {c : Nat} (hx : parseXml (p ++ [c]) = .ok x) (hc : c ≠ '>'.toNat)
    (hne : x.children ≠ []) :
    ∃ f ∈ stanzasOf (p ++ [c]) x.children, f.2.getLast? = some c := by
  obtain ⟨k, hk⟩ : ∃ k, x.children.length = k + 1 :=
    Nat.exists_eq_succ_of_ne_zero fun h => hne (List.length_eq_zero_iff.mp h)
  have hlt : k < x.children.length := by omega
  have hget : (stanzasOf (p ++ [c]) x.children)[k]?
      = some (x.children[k], slice (p ++ [c]) (x.children[k]).bodyIndex (p ++ [c]).length) := by
    rw [getElem?_stanzasOf, List.getElem?_eq_getElem hlt,
      List.getElem?_eq_none (by omega : x.children.length ≤ k + 1)]
    rfl
  obtain ⟨hpos, hle, hbody⟩ := bodies_sound hx (List.mem_map_of_mem (List.getElem_mem hlt))
  refine ⟨_, List.mem_of_getElem? hget, ?_⟩
  have hlast : (p ++ [c])[(p ++ [c]).length - 1]? = some c := by simp
  have hnil : slice (p ++ [c]) (x.children[k]).bodyIndex (p ++ [c]).length ≠ [] := by
    intro hnil
    have hlen := congrArg List.length hnil
    rw [slice, List.take_length, List.length_drop, List.length_nil] at hlen
    rw [show (x.children[k]).bodyIndex = (p ++ [c]).length by omega, hlast] at hbody
    exact hc (Option.some.inj hbody)
  exact (slice_last hnil le_rfl).trans hlast

end Chunks

/-! ## Streams of stanzas -/

section Streams

variable {waiting waiting' : List JsString} {ss : List Stanza} {chunks : List (List Nat)}

/-- A unit that is one of a few characters stands for it. -/
theorem utf16_head (c : Char) : ∃ u r, utf16 c = u :: r ∧ (u < 0xD800 → u = c.toNat) := by
  unfold utf16
  split_ifs with h
  · exact ⟨_, _, rfl, fun _ => rfl⟩
  · exact ⟨_, _, rfl, fun hu => by omega⟩

theorem Stanza.begins (s : Stanza) (p : JsString) : Begins (s.units ++ p) := by
  obtain ⟨text, hfirst, hsecond, hlast, -⟩ := s
  cases text with
  | nil => cases hfirst
  | cons c text =>
      obtain rfl := Option.some.inj hfirst
      cases text with
      | nil => exact absurd (Option.some.inj hlast) (by decide)
      | cons d text =>
          obtain ⟨u, r, hu, hval⟩ := utf16_head d
          have hlt : utf16 '<' = ['<'.toNat] := rfl
          have hunits :
              Stanza.units ⟨'<' :: d :: text, hfirst, hsecond, hlast, by assumption⟩ ++ p
                = '<'.toNat :: u :: (r ++ (text.flatMap utf16 ++ p)) := by
            simp [Stanza.units, hu, hlt]
          rw [hunits]
          refine ⟨rfl, fun x hx hmem => ?_⟩
          obtain rfl := Option.some.inj hx
          have hmap : u ∈ ['/', '!', '?'].map Char.toNat := hmem
          obtain ⟨e, he, heu⟩ := List.mem_map.mp hmap
          have hsmall : u < 0xD800 := by
            simp only [List.mem_cons, List.not_mem_nil, or_false, Char.reduceToNat] at hmem
            omega
          have hd : d = e := Char.toNat_inj.mp ((hval hsmall).symm.trans heu.symm)
          exact hsecond d rfl (hd ▸ he)

theorem Stanza.units_last (s : Stanza) : s.units.getLast? = some '>'.toNat := by
  obtain ⟨text, -, -, hlast, -⟩ := s
  obtain ⟨init, rfl⟩ := List.getLast?_eq_some_iff.mp hlast
  have hgt : utf16 '>' = ['>'.toNat] := rfl
  simp [Stanza.units, hgt]

theorem Stanza.textOf (s : Stanza) : textOf s.bytes = (s.units, false) := by
  have hdecode : decode s.bytes = s.units := by
    have h := decode_chars s.text []
    rwa [List.append_nil, show decode [] = [] from rfl, List.append_nil] at h
  obtain ⟨htext, -⟩ | ⟨str, hstr, -⟩ := textOf_cases s.bytes
  · rw [htext, hdecode]
  · exact absurd ⟨str, by rw [← hstr, hdecode]; rfl⟩ s.inner

theorem receive_deaf (waiting : List JsString) (chunks : List (List Nat)) :
    receive ⟨waiting, false⟩ chunks = [] := by
  induction chunks with
  | nil => rfl
  | cons chunk chunks ih => exact ih

/-- A chunk, when no error comes out of it and of those behind it. -/
theorem receive_chunk {chunk : List Nat} {str : JsString} {close : Bool}
    (htext : Xmpp.textOf chunk = (str, close))
    (herror : ∀ e, .error e ∉ receive ⟨waiting, true⟩ (chunk :: chunks)) : ∃ x waiting' es,
      Parsed str x ∧ stanzas es = stanzasOf str x.children
        ∧ receive ⟨waiting, true⟩ (chunk :: chunks) = es ++ receive ⟨waiting', !close⟩ chunks := by
  by_cases h : ∃ x, Parsed str x
  · obtain ⟨x, hx⟩ := h
    obtain ⟨waiting', es, hdata, hes, -⟩ := onData_parsed htext hx
    exact ⟨x, waiting', es, hx, hes, by rw [receive, hdata]⟩
  · obtain ⟨waiting', es, e, hdata, he, -⟩ := onData_failed htext (not_exists.mp h)
    refine absurd ?_ (herror e)
    rw [receive, hdata]
    exact List.mem_append_left _ he

/-- A stanza in a chunk of its own. -/
theorem receive_stanza (waiting : List JsString) (s : Stanza) (ss : List Stanza) :
    (∃ x waiting' es, Parsed s.units x ∧ stanzas es = stanzasOf s.units x.children
      ∧ (∀ e, .error e ∉ es) ∧ receive ⟨waiting, true⟩ ((s :: ss).map Stanza.bytes)
        = es ++ receive ⟨waiting', true⟩ (ss.map Stanza.bytes))
      ∨ ((∀ x, ¬ Parsed s.units x) ∧ ∃ es e,
        receive ⟨waiting, true⟩ ((s :: ss).map Stanza.bytes) = es ∧ .error e ∈ es
        ∧ (∀ x, parseXml s.units = .ok x →
          ∃ rest, rest ≠ [] ∧ stanzasOf s.units x.children = stanzas es ++ rest)
        ∧ ((∀ x, parseXml s.units ≠ .ok x) → stanzas es = [])) := by
  by_cases h : ∃ x, Parsed s.units x
  · obtain ⟨x, hx⟩ := h
    obtain ⟨waiting', es, hdata, hes, herror⟩ := onData_parsed s.textOf hx
    exact .inl ⟨x, waiting', es, hx, hes, herror, by rw [List.map_cons, receive, hdata]; rfl⟩
  · obtain ⟨waiting', es, e, hdata, he, hok, hfail⟩ := onData_failed s.textOf (not_exists.mp h)
    refine .inr ⟨not_exists.mp h, es, e, ?_, he, hok, hfail⟩
    rw [List.map_cons, receive, hdata, receive_deaf, List.append_nil]

theorem accepted_iff (s : Stanza) : s.Accepted ↔ ∃ x, Parsed s.units x :=
  ⟨fun ⟨x, hx, hall⟩ => ⟨x, hx, hall⟩, fun ⟨x, hx⟩ => ⟨x, hx.parse, hx.answerable⟩⟩

/-- Without an error the stanzas are accepted. -/
theorem receive_errors (waiting : List JsString) (ss : List Stanza) :
    (∀ e, .error e ∉ receive ⟨waiting, true⟩ (ss.map Stanza.bytes)) ↔ ∀ s ∈ ss, s.Accepted := by
  induction ss generalizing waiting with
  | nil => simp [receive]
  | cons s ss ih =>
      rw [List.forall_mem_cons, accepted_iff]
      obtain ⟨x, waiting', es, hx, -, herror, hreceive⟩ | ⟨hnone, es, e, hreceive, he, -⟩ :=
        receive_stanza waiting s ss
      · rw [hreceive, ← ih waiting']
        constructor
        · exact fun h => ⟨⟨x, hx⟩, fun e he => h e (List.mem_append_right es he)⟩
        · rintro ⟨-, h⟩ e he
          exact (List.mem_append.mp he).elim (herror e) (h e)
      · rw [hreceive]
        exact ⟨fun h => absurd he (h e), fun h => absurd h.1 (not_exists.mpr hnone)⟩

/-- Each stanza's text ends with a tag. -/
theorem receive_last (waiting : List JsString) (ss : List Stanza) {f : Element × JsString}
    (hf : f ∈ stanzas (receive ⟨waiting, true⟩ (ss.map Stanza.bytes))) :
    f.2 = [] ∨ f.2.getLast? = some '>'.toNat := by
  induction ss generalizing waiting with
  | nil => cases hf
  | cons s ss ih =>
      obtain ⟨x, waiting', es, hx, hes, -, hreceive⟩ | ⟨-, es, e, hreceive, -, hok, hfail⟩ :=
        receive_stanza waiting s ss
      · rw [hreceive, stanzas_append, List.mem_append, hes] at hf
        exact hf.elim (stanzasOf_last hx.parse s.units_last) (ih waiting')
      · rw [hreceive] at hf
        by_cases hx : ∃ x, parseXml s.units = .ok x
        · obtain ⟨x, hx⟩ := hx
          obtain ⟨rest, -, hrest⟩ := hok x hx
          exact stanzasOf_last hx s.units_last (hrest ▸ List.mem_append_left rest hf)
        · rw [hfail (not_exists.mp hx)] at hf
          cases hf

/-- The characters of a stream. -/
def streamText (ss : List Stanza) : List Char := ss.flatMap Stanza.text

theorem streamText_cons (s : Stanza) (ss : List Stanza) :
    (streamText (s :: ss)).flatMap utf16 = s.units ++ (streamText ss).flatMap utf16 := by
  rw [streamText, List.flatMap_cons, List.flatMap_append]
  rfl

/-- The end of the stream is not the beginning of a stanza. -/
theorem begins_streamEnd (p : JsString) : ¬ Begins (streamEnd ++ p) := by
  intro h
  have hsecond : (streamEnd ++ p)[1]? = some '/'.toNat := rfl
  exact h.2 _ hsecond List.mem_cons_self

/-- The characters of a text whose units are known. -/
theorem flatMap_cancel {us vs ts rest : List Char} (h : us ++ vs = ts ++ rest)
    (hunits : us.flatMap utf16 = ts.flatMap utf16) : us = ts ∧ vs = rest := by
  have hnil : ∀ {a : List Char}, a.flatMap utf16 = [] → a = [] := by
    intro a ha
    cases a with
    | nil => rfl
    | cons c a =>
        obtain ⟨u, r, hu, -⟩ := utf16_head c
        rw [List.flatMap_cons, hu] at ha
        cases ha
  obtain ⟨a, rfl, rfl⟩ | ⟨a, rfl, rfl⟩ := List.append_eq_append_iff.mp h
  · rw [List.flatMap_append, List.self_eq_append_right] at hunits
    obtain rfl := hnil hunits
    exact ⟨(List.append_nil us).symm, rfl⟩
  · rw [List.flatMap_append, List.append_right_eq_self] at hunits
    obtain rfl := hnil hunits
    exact ⟨List.append_nil ts, rfl⟩

/-- A chunk that is cut within a character does not end with a tag. -/
theorem cut_differs {us vs : List Char} {c : Char} {part : List Nat} {chunk : List Nat} {s : Stanza}
    (herror : ∀ e, .error e ∉ receive ⟨waiting, true⟩ (chunk :: chunks))
    (htext : s.text ++ streamText ss = us ++ c :: vs) (hpart : IsCut part c)
    (hdecode : decode chunk = us.flatMap utf16 ++ [replacement]) :
    stanzas (receive ⟨waiting, true⟩ (chunk :: chunks))
      ≠ stanzas (receive ⟨waiting', true⟩ ((s :: ss).map Stanza.bytes)) := by
  intro hsame
  have htag : textOf chunk = (us.flatMap utf16 ++ [replacement], false) := by
    obtain ⟨h, -⟩ | ⟨str, hstr, -⟩ := textOf_cases chunk
    · rw [h, hdecode]
    · rw [hdecode] at hstr
      have hlast := congrArg List.getLast? hstr
      have hend : streamEnd.getLast? = some '>'.toNat := by decide
      rw [List.getLast?_concat, List.getLast?_append, hend] at hlast
      exact absurd (Option.some.inj hlast) (by decide)
  have hus : us ≠ [] := by
    rintro rfl
    have hc : c = '<' := by
      have hfirst := s.first
      have hhead := congrArg List.head? htext
      rw [List.head?_append, hfirst] at hhead
      exact (Option.some.inj hhead).symm
    obtain ⟨missing, hcut, hne, hmissing⟩ := hpart
    have hlen := congrArg List.length hcut
    have hone : (utf8 c).length = 1 := by rw [hc]; decide
    have h1 := List.length_pos_iff.mpr hne
    have h2 := List.length_pos_iff.mpr hmissing
    rw [hone, List.length_append] at hlen
    omega
  have hbegins : Begins (us.flatMap utf16) := by
    refine (s.begins ((streamText ss).flatMap utf16)).front ?_ ?_
    · have hunits := congrArg (List.flatMap utf16) htext
      rw [List.flatMap_append, List.flatMap_append] at hunits
      exact ⟨_, hunits.symm⟩
    · obtain ⟨d, us, rfl⟩ := List.exists_cons_of_ne_nil hus
      obtain ⟨u, r, hu, -⟩ := utf16_head d
      rw [List.flatMap_cons, hu]
      simp
  obtain ⟨x, w, es, hx, hes, hreceive⟩ := receive_chunk htag herror
  have hchildren := parseXml_first hbegins.replaced.1 hbegins.replaced.2 hx.parse
  obtain ⟨f, hf, hlast⟩ := stanzasOf_open hx.parse (by decide) hchildren
  rw [hreceive, stanzas_append, hes] at hsame
  obtain hnil | hgreater := receive_last waiting' (s :: ss) (hsame ▸ List.mem_append_left _ hf)
  · rw [hnil] at hlast
    cases hlast
  · exact absurd (Option.some.inj (hlast.symm.trans hgreater)) (by decide)

/-- A chunk of whole characters is the first stanza, and the others give the others. -/
theorem first_chunk {us vs : List Char} {chunk : List Nat} {s : Stanza} (hus : us ≠ [])
    (herror : ∀ e, .error e ∉ receive ⟨waiting, true⟩ (chunk :: chunks))
    (hsplit : s.text ++ streamText ss = us ++ vs) (hdecode : decode chunk = us.flatMap utf16)
    (hsame : stanzas (receive ⟨waiting, true⟩ (chunk :: chunks))
      = stanzas (receive ⟨waiting', true⟩ ((s :: ss).map Stanza.bytes))) :
    (us = s.text ∧ vs = streamText ss) ∧ ∃ w w', (∀ e, .error e ∉ receive ⟨w, true⟩ chunks)
      ∧ stanzas (receive ⟨w, true⟩ chunks)
        = stanzas (receive ⟨w', true⟩ (ss.map Stanza.bytes)) := by
  have hunits : s.units ++ (streamText ss).flatMap utf16
      = us.flatMap utf16 ++ vs.flatMap utf16 := by
    have h := congrArg (List.flatMap utf16) hsplit
    rwa [List.flatMap_append, List.flatMap_append] at h
  have hbegins := s.begins ((streamText ss).flatMap utf16)
  -- what is parsed of the chunk is the stanza
  have hparsed : ∀ str close, textOf chunk = (str, close) → str <+: us.flatMap utf16 → str ≠ [] →
      str = s.units ∧ ∃ w w', (∀ e, .error e ∉ receive ⟨w, !close⟩ chunks)
        ∧ stanzas (receive ⟨w, !close⟩ chunks)
          = stanzas (receive ⟨w', true⟩ (ss.map Stanza.bytes)) := by
    intro str close htext hpre hstr
    obtain ⟨x, w, es, hx, hes, hreceive⟩ := receive_chunk htext herror
    have hstream : str <+: s.units ++ (streamText ss).flatMap utf16 :=
      hpre.trans ⟨_, hunits.symm⟩
    have hpq := List.prefix_or_prefix_of_prefix hstream (List.prefix_append s.units _)
    have hq : Begins s.units := by simpa using s.begins []
    have hp := hbegins.front hstream hstr
    rw [hreceive, stanzas_append, hes] at hsame
    obtain ⟨y, w', es', hy, hes', -, hreference⟩ | ⟨hnone, es', e, hreference, -, hok, hfail⟩ :=
      receive_stanza waiting' s ss
    · rw [hreference, stanzas_append] at hsame
      have heq : str = s.units := by
        refine same_text hpq hp hq hx.parse hsame ?_ fun h => absurd hy.parse (h y)
        intro y' hy'
        obtain rfl : y = y' := Except.ok.inj (hy.parse.symm.trans hy')
        exact ⟨[], by rw [hes', List.append_nil], fun h => absurd rfl h⟩
      subst heq
      obtain rfl : x = y := Except.ok.inj (hx.parse.symm.trans hy.parse)
      rw [hes'] at hsame
      refine ⟨rfl, w, w', fun e he => herror e ?_, List.append_cancel_left hsame⟩
      rw [hreceive]
      exact List.mem_append_right es he
    · rw [hreference, ← List.append_nil (stanzas es')] at hsame
      have heq : str = s.units := by
        refine same_text hpq hp hq hx.parse hsame ?_ fun h => ⟨hfail h, rfl⟩
        intro y hy
        obtain ⟨rest, -, hrest⟩ := hok y hy
        exact ⟨rest, hrest, fun _ => rfl⟩
      exact absurd (heq ▸ hx) (hnone x)
  obtain ⟨htext, -⟩ | ⟨str, hend, htext⟩ := textOf_cases chunk
  · rw [hdecode] at htext
    have hne : us.flatMap utf16 ≠ [] := by
      obtain ⟨d, us, rfl⟩ := List.exists_cons_of_ne_nil hus
      obtain ⟨u, r, hu, -⟩ := utf16_head d
      rw [List.flatMap_cons, hu]
      simp
    obtain ⟨heq, hrest⟩ := hparsed _ _ htext List.prefix_rfl hne
    exact ⟨flatMap_cancel hsplit.symm heq, hrest⟩
  · -- behind the stanza there is another one, not the end of the stream
    exfalso
    rw [hdecode] at hend
    have hstr : str ≠ [] := by
      rintro rfl
      rw [hunits, hend, List.nil_append] at hbegins
      exact begins_streamEnd _ hbegins
    obtain ⟨rfl, -⟩ := hparsed str true htext ⟨_, hend.symm⟩ hstr
    rw [hend, List.append_assoc] at hunits
    have hbehind := List.append_cancel_left hunits
    cases ss with
    | nil => cases hbehind
    | cons s' ss =>
        rw [streamText_cons] at hbehind
        have hnext := s'.begins ((streamText ss).flatMap utf16)
        rw [hbehind] at hnext
        exact begins_streamEnd _ hnext

/-- Chunks that give the stanzas are the stanzas. -/
theorem chunks_aligned (hne : ∀ c ∈ chunks, c ≠ [])
    (hflat : chunks.flatten = (streamText ss).flatMap utf8)
    (herror : ∀ e, .error e ∉ receive ⟨waiting, true⟩ chunks)
    (hsame : stanzas (receive ⟨waiting, true⟩ chunks)
      = stanzas (receive ⟨waiting', true⟩ (ss.map Stanza.bytes))) :
    chunks = ss.map Stanza.bytes := by
  induction ss generalizing waiting waiting' chunks with
  | nil =>
      cases chunks with
      | nil => rfl
      | cons chunk chunks =>
          exact absurd (List.append_eq_nil_iff.mp hflat).1 (hne chunk List.mem_cons_self)
  | cons s ss ih =>
      have htext : streamText (s :: ss) = s.text ++ streamText ss := rfl
      rw [htext] at hflat
      cases chunks with
      | nil =>
          obtain ⟨d, us, hus⟩ := List.exists_cons_of_ne_nil (l := s.text) fun h => by
            have hfirst := s.first
            rw [h] at hfirst
            cases hfirst
          rw [hus, List.cons_append, List.flatMap_cons] at hflat
          exact absurd (List.append_eq_nil_iff.mp hflat.symm).1 (utf8_ne_nil d)
      | cons chunk chunks =>
          obtain ⟨us, vs, hsplit, rfl, hrest⟩ | ⟨us, c, vs, part, hsplit, -, hpart, hdecode⟩ :=
            decode_front hflat
          · have hus : us ≠ [] := by
              rintro rfl
              exact hne _ List.mem_cons_self rfl
            have hdecode : decode (us.flatMap utf8) = us.flatMap utf16 := by
              have h := decode_chars us []
              rwa [List.append_nil, show decode [] = [] from rfl, List.append_nil] at h
            obtain ⟨⟨rfl, rfl⟩, w, w', hclean, hothers⟩ :=
              first_chunk hus herror hsplit hdecode hsame
            have hne' : ∀ c ∈ chunks, c ≠ [] := fun c hc => hne c (List.mem_cons_of_mem _ hc)
            rw [List.map_cons, ih hne' hrest hclean hothers]
            rfl
          · exact absurd hsame (cut_differs herror hsplit hpart hdecode)

theorem onData_empty (client : Client) : onData client [] = (client, []) := by
  obtain ⟨waiting, listening⟩ := client
  cases listening with
  | false => rfl
  | true => rfl

/-- A chunk without bytes is not noticed. -/
theorem receive_filter (client : Client) (chunks : List (List Nat)) :
    receive client (chunks.filter (· ≠ [])) = receive client chunks := by
  induction chunks generalizing client with
  | nil => rfl
  | cons chunk chunks ih =>
      by_cases h : chunk = []
      · rw [List.filter_cons_of_neg (by simp [h]), ih, receive, h, onData_empty]
        rfl
      · rw [List.filter_cons_of_pos (by simp [h]), receive, receive, ih]

theorem flatten_filter (chunks : List (List Nat)) :
    (chunks.filter (· ≠ [])).flatten = chunks.flatten := by
  induction chunks with
  | nil => rfl
  | cons chunk chunks ih =>
      by_cases h : chunk = []
      · rw [List.filter_cons_of_neg (by simp [h]), ih, h]
        rfl
      · rw [List.filter_cons_of_pos (by simp [h]), List.flatten_cons, List.flatten_cons, ih]

/-- Wherever the bytes of the stanzas are cut, what comes out is that of the stanzas just
where each is accepted and each chunk is one of them. -/
theorem onData_iff (waiting : List JsString) (ss : List Stanza) (chunks : List (List Nat))
    (hflat : chunks.flatten = ss.flatMap Stanza.bytes) :
    Delivered waiting ss chunks ↔
      chunks.filter (· ≠ []) = ss.map Stanza.bytes ∧ ∀ s ∈ ss, s.Accepted := by
  have hbytes : ss.flatMap Stanza.bytes = (streamText ss).flatMap utf8 := by
    rw [streamText, List.flatMap_assoc]
    rfl
  constructor
  · rintro ⟨hstanzas, -, herror⟩
    rw [← receive_filter] at hstanzas herror
    have haligned := chunks_aligned (fun c hc => by simpa using (List.mem_filter.mp hc).2)
      (by rw [flatten_filter, hflat, hbytes]) herror hstanzas
    refine ⟨haligned, ?_⟩
    rw [haligned] at herror
    exact (receive_errors waiting ss).mp herror
  · rintro ⟨haligned, haccepted⟩
    have hsame : receive ⟨waiting, true⟩ chunks
        = receive ⟨waiting, true⟩ (ss.map Stanza.bytes) := by
      rw [← receive_filter, haligned]
    refine ⟨by rw [hsame], by rw [hsame], ?_⟩
    rw [hsame]
    exact (receive_errors waiting ss).mpr haccepted

end Streams

def presence : Stanza where
  text := "<presence/>".toList
  first := rfl
  second c hc := by
    obtain rfl : 'p' = c := Option.some.inj hc
    decide
  last := rfl
  inner := by decide

theorem presence_whole : Delivered [js "1"] [presence] [presence.bytes] := by
  refine (onData_iff [js "1"] [presence] [presence.bytes] ?_).mpr ⟨by decide, ?_⟩
  · decide
  · intro s hs
    obtain rfl := List.mem_singleton.mp hs
    refine ⟨_, rfl, fun c hc hname => ?_⟩
    obtain rfl := List.mem_singleton.mp hc
    exact absurd hname (by decide)

/-- A stanza in two chunks is an error. -/
theorem presence_cut :
    ¬ Delivered [js "1"] [presence] [presence.bytes.take 4, presence.bytes.drop 4] := by
  rintro ⟨-, -, herror⟩
  have hreceive : receive ⟨[js "1"], true⟩ [presence.bytes.take 4, presence.bytes.drop 4]
      = [.error (.unclosedToken 0)] := rfl
  exact herror _ (hreceive ▸ List.mem_cons_self)

end Xmpp

end GenieAcs
