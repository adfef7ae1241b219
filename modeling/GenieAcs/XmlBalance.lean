import GenieAcs.Lib.Brackets
import GenieAcs.XmlParser

/-!
# Balanced documents

A text has one list of tags, up to the `>` of a CDATA section if there is one
(`parseXml_eq`). The parser follows them as brackets, with the synthetic root under the
names that are open. The root looks like an element: `</root>` closes it, and the next
tag finds no element (`parseXml_deliberate_iff`).
-/

namespace GenieAcs

namespace Xml

def Tag.bracket : Tag → Bracket JsString
  | .opening h => .opening h.name
  | .selfClosing h => .empty h.name
  | .closing name _ _ => .closing name

/-- The tags from index `i` on, and how the scanning ends. -/
def scanTags (string : JsString) :
    Nat → JsString → Scanner → List Tag × Except XmlError Scanner
  | _, [], s => ([], .ok s)
  | i, c :: cs, s =>
      match scan string i c s with
      | .error e => ([], .error e)
      | .ok (s, tag) =>
          let rest := scanTags string (i + 1) cs s
          (tag.toList ++ rest.1, rest.2)

def tagsOf (string : JsString) : List Tag := (scanTags string 0 string start).1

def scanEnd (string : JsString) : Except XmlError Scanner := (scanTags string 0 string start).2

def bracketsOf (string : JsString) : List (Bracket JsString) := (tagsOf string).map Tag.bracket

/-- The parser throws an error of its own, or it returns and the tags are balanced. -/
def Deliberate (string : JsString) : Prop :=
  (∃ e, parseXml string = .error e ∧ e ≠ .typeError) ∨
    ((∃ e, parseXml string = .ok e) ∧ Bracket.Balanced (bracketsOf string))

/-- `</root>` comes where no element is open, and another tag follows or the text ends
outside of tags. -/
def ClosesRoot (string : JsString) : Prop :=
  ∃ before after, bracketsOf string = before ++ .closing (js "root") :: after ∧
    Bracket.Balanced before ∧
    (after = [] → ∃ s, scanEnd string = .ok s ∧ s.state1 = 0)

/-! ## The scanner apart from the tree -/

variable {string : JsString} {t t' : Tree} {tag : Tag} {names names' : List JsString}

theorem scan_error {string : JsString} {i c : Nat} {s : Scanner} {e : XmlError}
    (h : scan string i c s = .error e) : e = .cdataNotSupported i := by
  unfold scan at h
  split_ifs at h
  unfold scanGreaterThan at h
  split_ifs at h
  exact (Except.error.inj h).symm

theorem scanTags_error {string cs : JsString} {i : Nat} {s : Scanner} {e : XmlError}
    (h : (scanTags string i cs s).2 = .error e) : ∃ j, e = .cdataNotSupported j := by
  induction cs generalizing i s with
  | nil => cases h
  | cons c cs ih =>
      rw [scanTags] at h
      cases hs : scan string i c s with
      | error e' =>
          rw [hs] at h
          obtain rfl : e' = e := Except.error.inj h
          exact ⟨i, scan_error hs⟩
      | ok r =>
          rw [hs] at h
          exact ih h

theorem parseFrom_eq (string cs : JsString) (i : Nat) (s : Scanner) (t : Tree) :
    parseFrom string i cs s t =
      (scanTags string i cs s).1.foldlM (Tree.apply string) t >>= fun t =>
        (scanTags string i cs s).2 >>= fun s => .ok (s, t) := by
  induction cs generalizing i s t with
  | nil => rfl
  | cons c cs ih =>
      rw [parseFrom, scanTags]
      cases hs : scan string i c s with
      | error e => rfl
      | ok r =>
          obtain ⟨s, tag⟩ := r
          cases tag with
          | none => exact ih (i + 1) s t
          | some tag =>
              show (t.apply string tag >>= fun t => parseFrom string (i + 1) cs s t) =
                (t.apply string tag >>= _) >>= _
              rw [bind_assoc]
              congr 1
              funext t
              exact ih (i + 1) s t

/-- The tags go to the tree, and then the text ends. -/
theorem parseXml_eq (string : JsString) :
    parseXml string =
      (tagsOf string).foldlM (Tree.apply string) ⟨[root], none⟩ >>= fun t =>
        scanEnd string >>= fun s => finish string s t := by
  rw [parseXml, parseFrom_eq, bind_assoc]
  congr 1
  funext t
  rw [bind_assoc]
  rfl

/-! ## What the tree does with a tag -/

/-- The names on the stack are those that are open, with the root under them. -/
def Tree.Open (names : List JsString) (t : Tree) : Prop :=
  t.stack.map Element.name = names ++ [js "root"]

theorem open_root : Tree.Open [] ⟨[root], none⟩ := rfl

theorem open_cons (h : t.Open names) : ∃ e stack, t.stack = e :: stack := by
  cases hs : t.stack with
  | nil =>
      rw [Tree.Open, hs] at h
      exact absurd h.symm (List.append_ne_nil_of_right_ne_nil _ (List.cons_ne_nil _ _))
  | cons e stack => exact ⟨e, stack, rfl⟩

theorem apply_of_step (ht : t.Open names) (h : Bracket.step names tag.bracket = some names') :
    ∃ t', t.apply string tag = .ok t' ∧ t'.Open names' := by
  obtain ⟨e, stack, hs⟩ := open_cons ht
  rw [Tree.Open, hs] at ht
  cases tag with
  | opening header =>
      cases h
      rw [Tree.apply, hs]
      refine ⟨_, rfl, ?_⟩
      rw [Tree.Open]
      exact congrArg (header.name :: ·) ht
  | selfClosing header =>
      cases h
      rw [Tree.apply, hs]
      exact ⟨_, rfl, ht⟩
  | closing name start i =>
      cases names with
      | nil => cases h
      | cons n names =>
          obtain ⟨hn, hrest⟩ := List.cons.inj ht
          have hname : n = name ∧ names = names' := by
            rw [Tag.bracket, Bracket.step] at h
            split_ifs at h with hn
            exact ⟨hn, Option.some.inj h⟩
          obtain ⟨rfl, rfl⟩ := hname
          cases stack with
          | nil => exact absurd hrest.symm (List.append_ne_nil_of_right_ne_nil _ (List.cons_ne_nil _ _))
          | cons parent stack =>
              rw [Tree.apply, hs]
              simp only [hn, ne_eq, not_true_eq_false, if_false]
              exact ⟨_, rfl, hrest⟩

/-- The root is closed like an element. -/
theorem apply_root (string : JsString) (start i : Nat) (ht : t.Open []) :
    ∃ t', t.apply string (.closing (js "root") start i) = .ok t' ∧ t'.stack = [] := by
  obtain ⟨e, stack, hs⟩ := open_cons ht
  rw [Tree.Open, hs] at ht
  obtain ⟨hname, hstack⟩ := List.cons.inj ht
  obtain rfl := List.map_eq_nil_iff.mp hstack
  rw [Tree.apply, hs]
  simp only [hname, ne_eq, not_true_eq_false, if_false]
  exact ⟨_, rfl, rfl⟩

/-- No tag but one that closes the root goes wrong unnoticed. -/
theorem apply_of_stuck (ht : t.Open names) (h : Bracket.step names tag.bracket = none)
    (hroot : names = [] → tag.bracket ≠ .closing (js "root")) :
    ∃ i, t.apply string tag = .error (.unmatchedClosingTag i) := by
  obtain ⟨e, stack, hs⟩ := open_cons ht
  rw [Tree.Open, hs] at ht
  cases tag with
  | opening header => cases h
  | selfClosing header => cases h
  | closing name start i =>
      have hne : e.name ≠ name := by
        rintro rfl
        cases names with
        | nil =>
            obtain ⟨hn, -⟩ := List.cons.inj ht
            exact hroot rfl (congrArg Bracket.closing hn)
        | cons n names =>
            obtain ⟨hn, -⟩ := List.cons.inj ht
            rw [Tag.bracket, Bracket.step, if_pos hn.symm] at h
            cases h
      refine ⟨i, ?_⟩
      rw [Tree.apply, hs]
      exact if_pos hne

theorem apply_of_empty (h : t.stack = []) : t.apply string tag = .error .typeError := by
  cases tag <;> rw [Tree.apply, h]

theorem run_of_follow {tags : List Tag} (ht : t.Open names)
    (h : Bracket.follow names (tags.map Tag.bracket) = some names') :
    ∃ t', tags.foldlM (Tree.apply string) t = .ok t' ∧ t'.Open names' := by
  induction tags generalizing names t with
  | nil =>
      cases h
      exact ⟨t, rfl, ht⟩
  | cons tag tags ih =>
      rw [List.map_cons, Bracket.follow_cons] at h
      obtain ⟨names₁, hstep, h⟩ := Option.bind_eq_some_iff.mp h
      obtain ⟨t₁, happly, ht₁⟩ := apply_of_step ht hstep
      obtain ⟨t', hrun, ht'⟩ := ih ht₁ h
      exact ⟨t', by rw [List.foldlM_cons]; exact bind_ok happly hrun, ht'⟩

/-! ## How the parser ends -/

theorem finish_unclosed {s : Scanner} (h : s.state1 ≠ 0) :
    finish string s t = .error (.unclosedToken s.state1Index) := if_pos h

/-- What the parser does once the tags are in the tree: it throws an error of its own,
or it returns and the stack is down to the root. -/
theorem finish_own (string : JsString) (hnames : t.Open names) :
    (∃ e, (scanEnd string >>= fun s => finish string s t) = .error e ∧ e ≠ .typeError) ∨
      ((∃ e, (scanEnd string >>= fun s => finish string s t) = .ok e) ∧ names = []) := by
  cases hend : scanEnd string with
  | error e =>
      obtain ⟨j, rfl⟩ := scanTags_error hend
      exact Or.inl ⟨_, rfl, XmlError.noConfusion⟩
  | ok s =>
      show (∃ e, finish string s t = _ ∧ _) ∨ (∃ e, finish string s t = _) ∧ _
      by_cases hs : s.state1 ≠ 0
      · exact Or.inl ⟨_, finish_unclosed hs, XmlError.noConfusion⟩
      · obtain ⟨e, stack, hstack⟩ := open_cons hnames
        rw [Tree.Open, hstack] at hnames
        cases stack with
        | cons parent stack =>
            refine Or.inl ⟨.unclosedXmlElement e.bodyIndex, ?_, XmlError.noConfusion⟩
            rw [finish, if_neg hs, hstack]
        | nil =>
            refine Or.inr ⟨?_, ?_⟩
            · rw [finish, if_neg hs, hstack]
              exact ⟨_, rfl⟩
            · cases names with
              | nil => rfl
              | cons n names =>
                  obtain ⟨-, h⟩ := List.cons.inj hnames
                  exact absurd h.symm
                    (List.append_ne_nil_of_right_ne_nil _ (List.cons_ne_nil _ _))

theorem deliberate_of_follow (h : Bracket.follow [] (bracketsOf string) = some names) :
    Deliberate string := by
  obtain ⟨t, hrun, ht⟩ := run_of_follow open_root h
  rw [Deliberate, parseXml_eq, hrun]
  rcases finish_own string ht with herror | ⟨hok, hnames⟩
  · exact Or.inl herror
  · exact Or.inr ⟨hok, by rw [Bracket.Balanced, h, hnames]⟩

/-- The tags up to the first that does not fit, and the tree before it. -/
theorem run_of_stuck (k : Bracket.Stuck [] (bracketsOf string)) :
    ∃ before tag after t, tagsOf string = before ++ tag :: after ∧ tag.bracket = k.b ∧
      after.map Tag.bracket = k.after ∧ t.Open k.names' ∧
      before.foldlM (Tree.apply string) ⟨[root], none⟩ = .ok t := by
  obtain ⟨before, rest, heq, hbefore, hrest⟩ := List.map_eq_append_iff.mp k.eq
  obtain ⟨tag, after, rfl, htag, hafter⟩ := List.map_eq_cons_iff.mp hrest
  have hfollow := k.follow
  rw [← hbefore] at hfollow
  obtain ⟨t, hrun, ht⟩ := run_of_follow open_root hfollow
  exact ⟨before, tag, after, t, heq, htag, hafter, ht, hrun⟩

theorem deliberate_of_stuck (k : Bracket.Stuck [] (bracketsOf string))
    (hroot : k.names' = [] → k.b ≠ .closing (js "root")) : Deliberate string := by
  obtain ⟨before, tag, after, t, heq, htag, -, ht, hrun⟩ := run_of_stuck k
  obtain ⟨i, happly⟩ := apply_of_stuck ht (htag ▸ k.step) (htag ▸ hroot)
  refine Or.inl ⟨.unmatchedClosingTag i, ?_, XmlError.noConfusion⟩
  rw [parseXml_eq, heq, List.foldlM_append, hrun]
  show ((t.apply string tag >>= _) >>= _) = _
  rw [happly]
  rfl

/-- After `</root>` nothing but an error in the scanner is noticed. -/
theorem deliberate_root (k : Bracket.Stuck [] (bracketsOf string)) (hnames : k.names' = [])
    (hb : k.b = .closing (js "root")) :
    Deliberate string ↔ ¬ (k.after = [] → ∃ s, scanEnd string = .ok s ∧ s.state1 = 0) := by
  obtain ⟨before, tag, after, t, heq, htag, hafter, ht, hrun⟩ := run_of_stuck k
  rw [hnames] at ht
  rw [hb] at htag
  have hunbalanced : ¬ Bracket.Balanced (bracketsOf string) := by
    rw [Bracket.Balanced, k.follow_eq_none]
    exact (Option.some_ne_none _).symm
  cases tag with
  | opening h => cases htag
  | selfClosing h => cases htag
  | closing name start i =>
      obtain rfl := Bracket.closing.inj htag
      obtain ⟨t', happly, hstack⟩ := apply_root string start i ht
      have hparse : parseXml string =
          after.foldlM (Tree.apply string) t' >>= fun t =>
            scanEnd string >>= fun s => finish string s t := by
        rw [parseXml_eq, heq, List.foldlM_append, hrun]
        show ((t.apply string _ >>= _) >>= _) = _
        rw [happly]
        rfl
      rw [Deliberate, hparse, ← hafter]
      cases after with
      | cons tag after =>
          have herror : (tag :: after).foldlM (Tree.apply string) t' = .error .typeError := by
            rw [List.foldlM_cons, apply_of_empty hstack]
            rfl
          rw [herror]
          constructor
          · rintro (⟨e, he, hne⟩ | ⟨⟨e, he⟩, -⟩)
            · exact absurd (Except.error.inj he).symm hne
            · cases he
          · intro h
            exact absurd (fun hnil => absurd hnil (List.cons_ne_nil _ _)) h
      | nil =>
          show ((∃ e, (scanEnd string >>= _) = _ ∧ _) ∨ _) ↔ _
          cases hend : scanEnd string with
          | error e =>
              obtain ⟨j, rfl⟩ := scanTags_error hend
              refine iff_of_true (Or.inl ⟨_, rfl, XmlError.noConfusion⟩) fun h => ?_
              obtain ⟨s, hs, -⟩ := h rfl
              cases hs
          | ok s =>
              show ((∃ e, finish string s t' = _ ∧ _) ∨ _) ↔ _
              by_cases hs : s.state1 = 0
              · have hok : ∃ e, finish string s t' = .ok e := by
                  rw [finish, if_neg (not_not.mpr hs), hstack]
                  exact ⟨_, rfl⟩
                obtain ⟨e, he⟩ := hok
                refine iff_of_false ?_ (not_not.mpr fun _ => ⟨s, rfl, hs⟩)
                rintro (⟨e', he', -⟩ | ⟨-, hbalanced⟩)
                · rw [he] at he'
                  cases he'
                · exact hunbalanced hbalanced
              · refine iff_of_true (Or.inl ⟨_, finish_unclosed hs, XmlError.noConfusion⟩) ?_
                intro h
                obtain ⟨s', hs', hzero⟩ := h rfl
                obtain rfl := Except.ok.inj hs'
                exact hs hzero

theorem parseXml_deliberate_iff (string : JsString) : Deliberate string ↔ ¬ ClosesRoot string := by
  cases hfollow : Bracket.follow [] (bracketsOf string) with
  | some names =>
      refine iff_of_true (deliberate_of_follow hfollow) ?_
      rintro ⟨before, after, heq, hbalanced, -⟩
      rw [heq, Bracket.follow_append, hbalanced, Option.bind_some] at hfollow
      cases hfollow
  | none =>
      obtain ⟨k⟩ := Bracket.stuck_of_follow hfollow
      by_cases hroot : k.names' = [] ∧ k.b = .closing (js "root")
      · obtain ⟨hnames, hb⟩ := hroot
        rw [deliberate_root k hnames hb, not_iff_not]
        constructor
        · intro h
          refine ⟨k.before, k.after, hb ▸ k.eq, ?_, h⟩
          rw [Bracket.Balanced, k.follow, hnames]
        · rintro ⟨before, after, heq, hbalanced, h⟩
          obtain ⟨-, -, -, rfl⟩ := k.unique heq hbalanced rfl
          exact h
      · refine iff_of_true (deliberate_of_stuck k fun hnames hb => hroot ⟨hnames, hb⟩) ?_
        rintro ⟨before, after, heq, hbalanced, -⟩
        obtain ⟨-, hnames, hb, -⟩ := k.unique heq hbalanced rfl
        exact hroot ⟨hnames, hb⟩

/-- `</root>` is accepted, and a tag after it finds no element. -/
theorem root_closed :
    (∃ e, parseXml (js "</root>") = .ok e) ∧ ¬ Deliberate (js "</root>") ∧
      parseXml (js "</root><a/>") = .error .typeError ∧ ¬ Deliberate (js "</root><a/>") := by
  have haccept : parseXml (js "</root>") = .ok ⟨js "root", [], js "root", [], js "</root>", 0, []⟩ := rfl
  have hthrow : parseXml (js "</root><a/>") = .error .typeError := rfl
  refine ⟨⟨_, haccept⟩, ?_, hthrow, ?_⟩
  · rintro (⟨e, he, -⟩ | ⟨-, hbalanced⟩)
    · rw [haccept] at he
      cases he
    · cases hbalanced
  · rw [Deliberate, hthrow]
    rintro (⟨e, he, hne⟩ | ⟨⟨e, he⟩, -⟩)
    · exact hne (Except.error.inj he).symm
    · cases he

end Xml

end GenieAcs
