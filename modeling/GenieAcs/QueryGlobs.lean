import GenieAcs.Lib.Quantified
import GenieAcs.Lib.Wildcard
import GenieAcs.LikeRegExps
import Mathlib.Data.List.DropRight

/-!
# Globs in queries

A string with an asterisk in a query also stands for a regular expression, which
`stringToRegexp` prints. Of the characters that mean something in regular
expressions it escapes the first one only, and it replaces only one of the
asterisks between other characters, by a dot and a star. So the expression finds
the texts that the glob has just where there is nothing else to escape or to
replace (`stringToRegexp_iff`).
-/

namespace GenieAcs

namespace QueryGlob

open Quantified

/-! ## Printing -/

/-- `[[\]\\^$.|?+()]`. -/
def special : List Nat := js "[]\\^$.|?+()"

/-- `replace` without the `g` flag. -/
def escapeFirst : JsString → JsString
  | [] => []
  | c :: cs => if c ∈ special then '\\'.toNat :: c :: cs else c :: escapeFirst cs

def replaceStar : JsString → JsString
  | [] => []
  | c :: cs => if c = '*'.toNat then '.'.toNat :: '*'.toNat :: cs else c :: replaceStar cs

/-- What `stringToRegexp` gives to `RegExp`. -/
def globSource (input : JsString) : JsString :=
  let output := escapeFirst input
  let output :=
    if output.head? = some '*'.toNat then output.dropWhile (· = '*'.toNat) else '^'.toNat :: output
  let output :=
    if output.getLast? = some '*'.toNat then output.rdropWhile (· = '*'.toNat)
    else output ++ ['$'.toNat]
  replaceStar output

/-! ## Regular expressions

The sources that are rows of anchors and quantified atoms are read here; of the
others it is not assumed what `RegExp` makes of them. -/

def digit (c : Nat) : Bool := 48 ≤ c ∧ c ≤ 57

/-- How far the count in braces has been read. -/
inductive Count
  | start
  | digits
  | comma

/-- Behind an open brace: digits, maybe a comma and more digits, and a closing brace. -/
def counts : Count → JsString → Bool
  | _, [] => false
  | .start, c :: cs => digit c && counts .digits cs
  | .digits, c :: cs =>
      if digit c then counts .digits cs else if c = ','.toNat then counts .comma cs
      else c = '\x7d'.toNat
  | .comma, c :: cs => if digit c then counts .comma cs else c = '\x7d'.toNat

def braced (cs : JsString) : Bool := counts .start cs

/-- What was read last: an atom that a quantifier may follow, or a quantifier. -/
inductive Pending
  | ready
  | atom (a : Atom Nat)
  | quantified

def Pending.flush : Pending → List (Piece Nat)
  | .atom a => [.one a]
  | _ => []

/-- The atom under a quantifier. -/
def Pending.quantify : Pending → Nat → Option (Piece Nat)
  | .atom a, c =>
      if c = '*'.toNat then some (.rep a 0 none)
      else if c = '+'.toNat then some (.rep a 1 none)
      else if c = '?'.toNat then some (.rep a 0 (some 1))
      else none
  | _, _ => none

/-- Behind a quantifier a question mark only makes it prefer short matches. -/
def Pending.lazy : Pending → Nat → Bool
  | .quantified, c => c = '?'.toNat
  | _, _ => false

def scan : Pending → List Nat → Option (List (Piece Nat))
  | p, [] => some p.flush
  | p, c :: cs =>
      match p.quantify c with
      | some q => (scan .quantified cs).map (q :: ·)
      | none =>
          if p.lazy c then scan .ready cs
          else
            Option.map (p.flush ++ ·) <|
              if c = '\\'.toNat then
                match cs with
                | [] => none
                | d :: cs => if d ∈ RegExp.punctuation then scan (.atom (.unit d)) cs else none
              else if c = '.'.toNat then scan (.atom .any) cs
              else if c = '^'.toNat then (scan .ready cs).map (.start :: ·)
              else if c = '$'.toNat then (scan .ready cs).map (.stop :: ·)
              else if c ∈ js "*+?()[|" then none
              else if c = '\x7b'.toNat ∧ braced cs then none
              else scan (.atom (.unit c)) cs

/-- What a dot takes. -/
def dot (c : Nat) : Prop := ¬ Like.LineTerminator c

/-- `new RegExp(source)` and its `test`; `none` is a syntax error. -/
structure Engine where
  compile : JsString → Option (JsString → Prop)
  rows : ∀ source pieces, scan .ready source = some pieces →
    ∃ test, compile source = some test ∧ ∀ x, test x ↔ Test dot pieces x

/-- `none` is `false`. -/
def stringToRegexp (E : Engine) (input : JsString) : Except JsError (Option (JsString → Prop)) :=
  if '*'.toNat ∉ input then pure none
  else
    match E.compile (globSource input) with
    | none => throw .syntaxError
    | some test => pure (some test)

/-! ## Globs -/

def globToken (c : Nat) : Wildcard.Token Nat := if c = '*'.toNat then .run else .unit c

/-- A text of the glob. -/
def Glob (v x : JsString) : Prop := Wildcard.Matches (v.map globToken) x

/-- The expression is built, and finds the texts of the glob. -/
def Globs (E : Engine) (v : JsString) : Prop :=
  ∃ test, stringToRegexp E v = .ok (some test) ∧ ∀ x, test x ↔ Glob v x

/-! ## The parts of a value -/

/-- What is between the asterisks at both ends. -/
def core (v : JsString) : JsString :=
  (v.dropWhile (· = '*'.toNat)).rdropWhile (· = '*'.toNat)

/-- There is an anchor in front. -/
def front (v : JsString) : Bool := v.head? ≠ some '*'.toNat

def back (v : JsString) : Bool := (v.dropWhile (· = '*'.toNat)).getLast? ≠ some '*'.toNat

def Stars (s : JsString) : Prop := ∀ c ∈ s, c = '*'.toNat

structure Parts (v left right : JsString) : Prop where
  split : v = left ++ (core v ++ right)
  leftStars : Stars left
  rightStars : Stars right
  atFront : front v = true ↔ left = []
  atBack : back v = true ↔ right = []
  head : (core v).head? ≠ some '*'.toNat
  last : (core v).getLast? ≠ some '*'.toNat
  empty : core v = [] → right = []

theorem exists_parts (v : JsString) : ∃ left right, Parts v left right := by
  have hhead : (v.dropWhile (· = '*'.toNat)).head? ≠ some '*'.toNat := by
    intro h
    have hnot := List.head?_dropWhile_not (fun c => decide (c = '*'.toNat)) v
    rw [h] at hnot
    exact absurd hnot (by decide)
  refine ⟨v.takeWhile (· = '*'.toNat), (v.dropWhile (· = '*'.toNat)).rtakeWhile (· = '*'.toNat),
    ?_, fun c hc => ?_, fun c hc => ?_, ?_, ?_, ?_, ?_, ?_⟩
  · rw [core, List.rdropWhile_append_rtakeWhile, List.takeWhile_append_dropWhile]
  · have hstar := List.mem_takeWhile_imp hc
    exact of_decide_eq_true hstar
  · have hstar := List.mem_rtakeWhile_imp hc
    exact of_decide_eq_true hstar
  · rw [front]
    cases v with
    | nil => simp
    | cons c v => by_cases hc : c = '*'.toNat <;> simp [hc]
  · rw [back, decide_eq_true_eq, List.rtakeWhile_eq_nil_iff]
    constructor
    · intro h hl hstar
      rw [List.getLast?_eq_some_getLast hl] at h
      exact h (congrArg some (of_decide_eq_true hstar))
    · intro h hlast
      have hne : v.dropWhile (· = '*'.toNat) ≠ [] := by
        intro hnil
        rw [hnil] at hlast
        cases hlast
      rw [List.getLast?_eq_some_getLast hne] at hlast
      exact h hne (decide_eq_true (Option.some.inj hlast))
  · intro h
    obtain ⟨rest, hrest⟩ := List.rdropWhile_prefix (· = '*'.toNat) (l := v.dropWhile (· = '*'.toNat))
    rw [← hrest] at hhead
    refine hhead ?_
    cases hcore : core v with
    | nil =>
        rw [hcore] at h
        cases h
    | cons c cs =>
        rw [hcore] at h
        rw [core] at hcore
        rw [hcore]
        exact h
  · intro h
    have hne : core v ≠ [] := by
      intro hnil
      rw [hnil] at h
      cases h
    rw [List.getLast?_eq_some_getLast hne] at h
    exact List.rdropWhile_last_not _ _ hne (decide_eq_true (Option.some.inj h))
  · intro h
    have hall := List.rdropWhile_eq_nil_iff.mp h
    cases hdrop : v.dropWhile (· = '*'.toNat) with
    | nil => rfl
    | cons c cs =>
        rw [hdrop] at hall hhead
        have hc := of_decide_eq_true (hall c List.mem_cons_self)
        exact absurd (congrArg some hc) hhead

/-- The pattern without its stars. -/
def letters (s : JsString) : JsString := s.filter (· ≠ '*'.toNat)

/-- The escaped and replaced text; the flags tell whether the one escape and the
one replacement are made. -/
def body : Bool → Bool → JsString → JsString
  | _, _, [] => []
  | escaped, replaced, c :: cs =>
      if c = '*'.toNat then
        if replaced then c :: body escaped true cs
        else '.'.toNat :: c :: body escaped true cs
      else if c ∈ special ∧ escaped = false then '\\'.toNat :: c :: body true replaced cs
      else c :: body escaped replaced cs

theorem body_done (s : JsString) : body true true s = s := by
  induction s with
  | nil => rfl
  | cons c s ih => simp [body, ih]

theorem body_escaped (s : JsString) : body true false s = replaceStar s := by
  induction s with
  | nil => rfl
  | cons c s ih =>
      have hdone : ¬ (c ∈ special ∧ true = false) := fun h => nomatch h.2
      rw [body, replaceStar, body_done, ih]
      by_cases hc : c = '*'.toNat
      · rw [if_pos hc, if_pos hc, hc]
        rfl
      · rw [if_neg hc, if_neg hc, if_neg hdone]

theorem star_not_special : '*'.toNat ∉ special := by decide

theorem body_replaced (s : JsString) : body false true s = escapeFirst s := by
  induction s with
  | nil => rfl
  | cons c s ih =>
      rw [body, escapeFirst, body_done, ih]
      by_cases hc : c = '*'.toNat
      · rw [if_pos hc, if_pos rfl, if_neg (hc ▸ star_not_special)]
      · rw [if_neg hc]
        exact if_congr (and_iff_left rfl) rfl rfl

theorem body_eq (s : JsString) : body false false s = replaceStar (escapeFirst s) := by
  induction s with
  | nil => rfl
  | cons c s ih =>
      rw [body, escapeFirst, body_replaced, body_escaped, ih]
      by_cases hc : c = '*'.toNat
      · have hplain : c ∉ special := hc ▸ star_not_special
        rw [if_pos hc, if_neg hplain, replaceStar, if_pos hc, hc]
        rfl
      · rw [if_neg hc]
        by_cases hspecial : c ∈ special
        · have hslash : '\\'.toNat ≠ '*'.toNat := by decide
          rw [if_pos ⟨hspecial, rfl⟩, if_pos hspecial, replaceStar, if_neg hslash, replaceStar,
            if_neg hc]
        · rw [if_neg fun h => hspecial h.1, if_neg hspecial, replaceStar, if_neg hc]

theorem escapeFirst_stars {s : JsString} (h : Stars s) (t : JsString) :
    escapeFirst (s ++ t) = s ++ escapeFirst t := by
  induction s with
  | nil => rfl
  | cons c s ih =>
      obtain ⟨hc, hs⟩ := List.forall_mem_cons.mp h
      rw [List.cons_append, escapeFirst, if_neg (hc ▸ star_not_special), ih hs, List.cons_append]

theorem escapeFirst_append {t : JsString} (h : Stars t) (s : JsString) :
    escapeFirst (s ++ t) = escapeFirst s ++ t := by
  induction s with
  | nil =>
      have hnil := escapeFirst_stars h []
      rw [List.append_nil] at hnil
      exact hnil.trans (List.append_nil t)
  | cons c s ih =>
      rw [List.cons_append, escapeFirst, escapeFirst, ih]
      split_ifs <;> rfl

/-- Escaping changes neither whether a text starts with an asterisk nor whether
it ends with one. -/
theorem escapeFirst_head {s : JsString} (h : s.head? ≠ some '*'.toNat) :
    (escapeFirst s).head? ≠ some '*'.toNat := by
  cases s with
  | nil => exact h
  | cons c s =>
      rw [escapeFirst]
      split_ifs
      · exact fun heq => absurd (Option.some.inj heq) (by decide)
      · exact h

theorem escapeFirst_getLast? (s : JsString) : (escapeFirst s).getLast? = s.getLast? := by
  have hcons : ∀ (c : Nat) {s t : JsString}, (s = [] ↔ t = []) → s.getLast? = t.getLast? →
      (c :: s).getLast? = (c :: t).getLast? := by
    intro c s t hnil h
    rw [List.getLast?_cons, List.getLast?_cons, h]
  induction s with
  | nil => rfl
  | cons c s ih =>
      rw [escapeFirst]
      split_ifs
      · rw [List.getLast?_cons_cons]
      · rw [List.getLast?_cons, List.getLast?_cons, ih]

theorem replaceStar_append {t : JsString} (h : '*'.toNat ∉ t) (s : JsString) :
    replaceStar (s ++ t) = replaceStar s ++ t := by
  induction s with
  | nil =>
      show replaceStar t = t
      induction t with
      | nil => rfl
      | cons c t ih =>
          rw [List.mem_cons, not_or] at h
          rw [replaceStar, if_neg (Ne.symm h.1), ih h.2]
  | cons c s ih =>
      rw [List.cons_append, replaceStar, replaceStar, ih]
      split_ifs <;> rfl

theorem Stars.dropWhile_append {s t : JsString} (hs : Stars s) (ht : t.head? ≠ some '*'.toNat) :
    (s ++ t).dropWhile (· = '*'.toNat) = t := by
  rw [List.dropWhile_append_of_pos fun c hc => decide_eq_true (hs c hc)]
  cases t with
  | nil => rfl
  | cons c t =>
      have hc : ¬ decide (c = '*'.toNat) = true := fun h => ht (congrArg some (of_decide_eq_true h))
      exact List.dropWhile_cons_of_neg hc

theorem Stars.rdropWhile_append {s t : JsString} (hs : Stars s)
    (ht : t.getLast? ≠ some '*'.toNat) : (t ++ s).rdropWhile (· = '*'.toNat) = t := by
  have hs' : Stars s.reverse := fun c hc => hs c (List.mem_reverse.mp hc)
  rw [List.rdropWhile, List.reverse_append,
    hs'.dropWhile_append (by rwa [List.head?_reverse]), List.reverse_reverse]

theorem Stars.head? {s : JsString} (hs : Stars s) (hne : s ≠ []) : s.head? = some '*'.toNat := by
  cases s with
  | nil => exact absurd rfl hne
  | cons c s => exact congrArg some (hs c List.mem_cons_self)

theorem Stars.getLast? {s : JsString} (hs : Stars s) (hne : s ≠ []) :
    s.getLast? = some '*'.toNat := by
  have hs' : Stars s.reverse := fun c hc => hs c (List.mem_reverse.mp hc)
  rw [List.getLast?_eq_head?_reverse]
  exact hs'.head? (mt List.reverse_eq_nil_iff.mp hne)

/-- The anchors around the escaped and replaced text. -/
theorem globSource_eq {v left right : JsString} (h : Parts v left right) :
    globSource v = (if front v then ['^'.toNat] else []) ++ (body false false (core v)
      ++ if back v then ['$'.toNat] else []) := by
  have hescape : escapeFirst v = left ++ (escapeFirst (core v) ++ right) := by
    conv_lhs => rw [h.split, escapeFirst_stars h.leftStars, escapeFirst_append h.rightStars]
  have hhead := escapeFirst_head h.head
  have hlast : (escapeFirst (core v)).getLast? ≠ some '*'.toNat := by
    rw [escapeFirst_getLast?]
    exact h.last
  have hinner : (escapeFirst (core v) ++ right).head? ≠ some '*'.toNat := by
    cases hcore : escapeFirst (core v) with
    | cons c cs =>
        rw [hcore] at hhead
        exact hhead
    | nil =>
        have hempty : core v = [] := by
          cases hv : core v with
          | nil => rfl
          | cons c cs =>
              rw [hv, escapeFirst] at hcore
              split_ifs at hcore
        rw [h.empty hempty]
        simp
  let opening := if front v then ['^'.toNat] else []
  have hopening : (if (escapeFirst v).head? = some '*'.toNat
      then (escapeFirst v).dropWhile (· = '*'.toNat) else '^'.toNat :: escapeFirst v)
      = opening ++ (escapeFirst (core v) ++ right) := by
    rw [hescape, h.leftStars.dropWhile_append hinner]
    by_cases hleft : left = []
    · have hfront : opening = ['^'.toNat] := if_pos (h.atFront.mpr hleft)
      rw [hfront, hleft, List.nil_append, if_neg hinner]
      rfl
    · have hfront : opening = [] := if_neg (mt h.atFront.mp hleft)
      have hstar : (left ++ (escapeFirst (core v) ++ right)).head? = some '*'.toNat := by
        rw [List.head?_append_of_ne_nil _ hleft, h.leftStars.head? hleft]
      rw [hfront, if_pos hstar, List.nil_append]
  have hend : (opening ++ escapeFirst (core v)).getLast? ≠ some '*'.toNat := by
    rw [List.getLast?_append]
    cases hcore : (escapeFirst (core v)).getLast? with
    | some c =>
        rw [hcore] at hlast
        exact hlast
    | none =>
        show (if front v then ['^'.toNat] else []).getLast? ≠ _
        split_ifs
        · exact fun heq => absurd (Option.some.inj heq) (by decide)
        · exact fun heq => nomatch heq
  have hreplace : ∀ t, replaceStar (opening ++ t) = opening ++ replaceStar t := by
    intro t
    show replaceStar ((if front v then ['^'.toNat] else []) ++ t) = _
    split_ifs with hfront
    · have hstar : ¬ '^'.toNat = '*'.toNat := by decide
      rw [List.singleton_append, replaceStar, if_neg hstar]
      show _ = (if front v then ['^'.toNat] else []) ++ _
      rw [if_pos hfront, List.singleton_append]
    · show _ = (if front v then ['^'.toNat] else []) ++ _
      rw [if_neg hfront, List.nil_append, List.nil_append]
  rw [globSource, body_eq]
  simp only [hopening]
  by_cases hright : right = []
  · have hnone : '*'.toNat ∉ ['$'.toNat] := by decide
    rw [hright, List.append_nil, if_neg hend, if_pos (h.atBack.mpr hright), List.append_assoc,
      hreplace, replaceStar_append hnone]
  · have hstar : (opening ++ (escapeFirst (core v) ++ right)).getLast? = some '*'.toNat := by
      rw [← List.append_assoc, List.getLast?_append_of_ne_nil _ hright,
        h.rightStars.getLast? hright]
    rw [if_pos hstar, ← List.append_assoc, h.rightStars.rdropWhile_append hend,
      if_neg (mt h.atBack.mp hright), hreplace, List.append_nil]

/-! ## Reading what is printed -/

theorem scan_end (p : Pending) : scan p [] = some p.flush := rfl

theorem scan_quantify {p : Pending} {c : Nat} {q : Piece Nat} (h : p.quantify c = some q)
    (cs : JsString) : scan p (c :: cs) = (scan .quantified cs).map (q :: ·) := by
  rw [scan.eq_def]
  simp only [h]

theorem scan_lazy {p : Pending} {c : Nat} (hquantify : p.quantify c = none)
    (hlazy : p.lazy c = true) (cs : JsString) : scan p (c :: cs) = scan .ready cs := by
  rw [scan.eq_def]
  simp only [hquantify, hlazy]
  rfl

theorem map_ready (o : Option (List (Piece Nat))) :
    Option.map (Pending.ready.flush ++ ·) o = o := by
  cases o <;> rfl

theorem scan_ready (c : Nat) (cs : JsString) : scan .ready (c :: cs)
    = if c = '\\'.toNat then
        match cs with
        | [] => none
        | d :: cs => if d ∈ RegExp.punctuation then scan (.atom (.unit d)) cs else none
      else if c = '.'.toNat then scan (.atom .any) cs
      else if c = '^'.toNat then (scan .ready cs).map (.start :: ·)
      else if c = '$'.toNat then (scan .ready cs).map (.stop :: ·)
      else if c ∈ js "*+?()[|" then none
      else if c = '\x7b'.toNat ∧ braced cs then none
      else scan (.atom (.unit c)) cs :=
  (scan.eq_def .ready (c :: cs)).trans (map_ready _)

/-- A character that neither is a quantifier nor makes one lazy. -/
theorem scan_fresh {p : Pending} {c : Nat} (hquantify : p.quantify c = none)
    (hlazy : p.lazy c = false) (cs : JsString) :
    scan p (c :: cs) = (scan .ready (c :: cs)).map (p.flush ++ ·) := by
  rw [scan_ready, scan.eq_def p]
  simp only [hquantify, hlazy]
  rw [if_neg Bool.false_ne_true]
  rfl

theorem scan_escape (d : Nat) (cs : JsString) : scan .ready ('\\'.toNat :: d :: cs)
    = if d ∈ RegExp.punctuation then scan (.atom (.unit d)) cs else none := by
  rw [scan_ready, if_pos rfl]

/-- A character that stands for itself. -/
def Ordinary (c : Nat) : Prop := c ≠ '*'.toNat ∧ (c ∈ special → c = ']'.toNat)

theorem scan_ordinary {c : Nat} (hc : Ordinary c) (cs : JsString) : scan .ready (c :: cs)
    = if c = '\x7b'.toNat ∧ braced cs then none else scan (.atom (.unit c)) cs := by
  have hne : ∀ d ∈ special, d ≠ ']'.toNat → c ≠ d := by
    rintro d hd hbracket rfl
    exact hbracket (hc.2 hd)
  have hnone : c ∉ js "*+?()[|" := by
    intro hmem
    have hall : ∀ d ∈ js "*+?()[|", d = '*'.toNat ∨ (d ∈ special ∧ d ≠ ']'.toNat) := by decide
    rcases hall c hmem with h | ⟨h, hbracket⟩
    · exact hc.1 h
    · exact hne c h hbracket rfl
  rw [scan_ready, if_neg (hne _ (by decide) (by decide)), if_neg (hne _ (by decide) (by decide)),
    if_neg (hne _ (by decide) (by decide)), if_neg (hne _ (by decide) (by decide)), if_neg hnone]

/-! ## What is printed for a value -/

/-- What is behind the core. -/
def ending (back : Bool) : JsString := if back then ['$'.toNat] else []

def endPieces (back : Bool) : List (Piece Nat) := if back then [.stop] else []

/-- Pieces in a row with the letters: an atom for each, and a run for the asterisk
that is replaced. Where the one escape is made, a backslash takes the next
character for its own. -/
inductive Aligned (back : Bool) : Bool → Bool → JsString → List (Piece Nat) → List (Piece Nat) →
    List (Atom Nat) → Prop
  | nil {m s} : Aligned back m s [] [] (endPieces back) []
  | star {m cs qs tl as} : Aligned back m true cs qs tl as →
      Aligned back m false ('*'.toNat :: cs) (.run :: qs) tl as
  | escaped {s c cs qs tl as} : c ∈ special → Aligned back true s cs qs tl as →
      Aligned back false s (c :: cs) (.one (.unit c) :: qs) tl (.unit c :: as)
  | plain {m s c cs qs tl as} : Ordinary c → (c ∈ special → m = true) →
      ¬ (c = '\x7b'.toNat ∧ braced cs = true) → Aligned back m s cs qs tl as →
      Aligned back m s (c :: cs) (.one (.unit c) :: qs) tl (.unit c :: as)
  | dot {s cs qs tl as} : Aligned back true s cs qs tl as →
      Aligned back true s ('.'.toNat :: cs) (.one .any :: qs) tl (.any :: as)
  | quoted {cs qs tl as} : Aligned back true true cs qs tl as →
      Aligned back true true ('\\'.toNat :: '*'.toNat :: cs) (.one (.unit '*'.toNat) :: qs) tl
        (.unit '*'.toNat :: as)
  | quotedEnd {s} : Aligned back true s ['\\'.toNat] [.one (.unit '$'.toNat)] []
      [.unit '$'.toNat]

section Reading

variable {back m s : Bool} {c : Nat} {cs : JsString} {p : Pending} {ps qs tl : List (Piece Nat)}
  {as : List (Atom Nat)}

theorem letters_cons (hc : c ≠ '*'.toNat) : letters (c :: cs) = c :: letters cs := by
  have hkept : decide (c ≠ '*'.toNat) = true := decide_eq_true hc
  exact List.filter_cons_of_pos hkept

theorem letters_star : letters ('*'.toNat :: cs) = letters cs := by
  have hdropped : ¬ decide ('*'.toNat ≠ '*'.toNat) = true := by decide
  exact List.filter_cons_of_neg hdropped

/-- Neither escaping nor replacing makes a count of what is none. -/
theorem counts_body (st : Count) (m s : Bool) (cs : JsString) :
    counts st (body m s cs ++ ending back) = counts st cs := by
  have hhead : ∀ (st : Count) {c : Nat} (r : JsString), c ∈ '*'.toNat :: special ∨ c = '.'.toNat →
      counts st (c :: r) = false := by
    intro st c r hc
    have hall : ∀ c, c ∈ '*'.toNat :: special ∨ c = '.'.toNat → digit c = false
        ∧ c ≠ ','.toNat ∧ c ≠ '\x7d'.toNat := by
      intro c hc
      rcases hc with hc | rfl
      · revert c
        decide
      · decide
    obtain ⟨hdigit, hcomma, hbrace⟩ := hall c hc
    cases st with
    | start => rw [counts, hdigit, Bool.false_and]
    | digits =>
        rw [counts, hdigit, if_neg Bool.false_ne_true, if_neg hcomma]
        exact decide_eq_false hbrace
    | comma =>
        rw [counts, hdigit, if_neg Bool.false_ne_true]
        exact decide_eq_false hbrace
  induction cs generalizing st m s with
  | nil =>
      show counts st (ending back) = counts st []
      rw [ending]
      split_ifs
      · rw [hhead st [] (Or.inl (by decide)), counts]
      · rfl
  | cons c cs ih =>
      rw [body]
      split_ifs with hc hs hspecial
      · rw [hc, List.cons_append, hhead st _ (Or.inl List.mem_cons_self),
          hhead st _ (Or.inl List.mem_cons_self)]
      · rw [hc, List.cons_append, hhead st _ (Or.inr rfl), hhead st _ (Or.inl List.mem_cons_self)]
      · rw [List.cons_append, hhead st _ (Or.inl (by decide)),
          hhead st _ (Or.inl (List.mem_cons_of_mem _ hspecial.1))]
      · rw [List.cons_append]
        cases st <;> simp only [counts, ih]

theorem Aligned.spread (h : Aligned back m s cs qs tl as) : Spread qs as := by
  induction h with
  | nil => exact .nil
  | star _ ih => exact .run ih
  | escaped _ _ ih => exact .one _ ih
  | plain _ _ _ _ ih => exact .one _ ih
  | dot _ ih => exact .one _ ih
  | quoted _ ih => exact .one _ ih
  | quotedEnd => exact .one _ .nil

theorem special_ne_star (h : c ∈ special) : c ≠ '*'.toNat := by
  rintro rfl
  exact star_not_special h

theorem Aligned.length (h : Aligned back m s cs qs tl as) : as.length = (letters cs).length := by
  induction h with
  | nil => rfl
  | star _ ih => rw [letters_star, ih]
  | escaped hc _ ih => rw [letters_cons (special_ne_star hc), List.length_cons, List.length_cons, ih]
  | plain hc _ _ _ ih => rw [letters_cons hc.1, List.length_cons, List.length_cons, ih]
  | dot _ ih => rw [letters_cons (by decide), List.length_cons, List.length_cons, ih]
  | quoted _ ih =>
      rw [letters_cons (by decide), letters_star, List.length_cons, List.length_cons, ih]
  | quotedEnd => rfl

theorem Aligned.closing (h : Aligned back m s cs qs tl as) : ∃ b, tl = endPieces b := by
  induction h with
  | nil => exact ⟨back, rfl⟩
  | star _ ih => exact ih
  | escaped _ _ ih => exact ih
  | plain _ _ _ _ ih => exact ih
  | dot _ ih => exact ih
  | quoted _ ih => exact ih
  | quotedEnd => exact ⟨false, rfl⟩

theorem least_endPieces (b : Bool) : least (endPieces b) = 0 := by
  cases b <;> rfl

theorem Aligned.least (h : Aligned back m s cs qs tl as) :
    least (qs ++ tl) = (letters cs).length := by
  obtain ⟨b, rfl⟩ := h.closing
  rw [least_append, least_endPieces, h.spread.least, h.length]
  rfl

/-- Less is taken than there are letters, or the pieces are in a row with them. -/
def Reads (back m s : Bool) (cs : JsString) (p : Pending) (ps : List (Piece Nat)) : Prop :=
  least ps < least p.flush + (letters cs).length
    ∨ ∃ qs tl as, ps = p.flush ++ (qs ++ tl) ∧ Aligned back m s cs qs tl as

theorem Reads.least_le (h : Reads back m s cs p ps) :
    Quantified.least ps ≤ Quantified.least p.flush + (letters cs).length := by
  rcases h with h | ⟨qs, tl, as, rfl, h⟩
  · exact h.le
  · rw [least_append, h.least]

theorem Reads.flush (h : Reads back m s cs .ready ps) : Reads back m s cs p (p.flush ++ ps) := by
  rcases h with h | ⟨qs, tl, as, rfl, h⟩
  · refine Or.inl ?_
    rw [least_append]
    have hready : Quantified.least Pending.ready.flush = 0 := rfl
    omega
  · exact Or.inr ⟨qs, tl, as, rfl, h⟩

theorem least_atom (a : Atom Nat) : least (Pending.atom a).flush = 1 := rfl

theorem Reads.atom {m' s' : Bool} {a : Atom Nat} {cs' : JsString}
    (h : Reads back m' s' cs' (.atom a) ps) (hlen : (letters cs).length = (letters cs').length + 1)
    (haligned : ∀ qs tl as, Aligned back m' s' cs' qs tl as →
      Aligned back m s cs (.one a :: qs) tl (a :: as)) : Reads back m s cs .ready ps := by
  rcases h with h | ⟨qs, tl, as, rfl, h⟩
  · rw [least_atom] at h
    refine Or.inl ?_
    omega
  · exact Or.inr ⟨_, tl, _, rfl, haligned _ _ _ h⟩

theorem not_quantifier {c : Nat} (hstar : c ≠ '*'.toNat) (hplus : c ≠ '+'.toNat)
    (hquestion : c ≠ '?'.toNat) (p : Pending) : p.quantify c = none ∧ p.lazy c = false := by
  cases p with
  | ready => exact ⟨rfl, rfl⟩
  | atom a => exact ⟨by rw [Pending.quantify, if_neg hstar, if_neg hplus, if_neg hquestion], rfl⟩
  | quantified => exact ⟨rfl, decide_eq_false hquestion⟩

theorem exists_fresh (h : scan p (c :: cs) = some ps) (hc : p.quantify c = none ∧ p.lazy c = false) :
    ∃ ps', scan .ready (c :: cs) = some ps' ∧ ps = p.flush ++ ps' := by
  rw [scan_fresh hc.1 hc.2] at h
  obtain ⟨ps', h', rfl⟩ := Option.map_eq_some_iff.mp h
  exact ⟨ps', h', rfl⟩

/-- What a quantifier leaves of its atom. -/
theorem quantify_cases {q : Piece Nat} (h : p.quantify c = some q) :
    least p.flush = 1 ∧ least [q] ≤ 1 ∧ (c = '*'.toNat → least [q] = 0)
      ∧ (c = '*'.toNat ∨ c = '+'.toNat ∨ c = '?'.toNat) := by
  cases p with
  | ready => cases h
  | quantified => cases h
  | atom a =>
      rw [Pending.quantify] at h
      split_ifs at h with hstar hplus hquestion
      · cases h
        exact ⟨rfl, Nat.zero_le _, fun _ => rfl, Or.inl hstar⟩
      · cases h
        exact ⟨rfl, le_rfl, fun heq => absurd heq hstar, Or.inr (Or.inl hplus)⟩
      · cases h
        exact ⟨rfl, Nat.zero_le _, fun _ => rfl, Or.inr (Or.inr hquestion)⟩

theorem least_cons (q : Piece Nat) (r : List (Piece Nat)) : least (q :: r) = least [q] + least r :=
  least_append [q] r

theorem special_punctuation : ∀ c ∈ special, c ∈ RegExp.punctuation := by decide

theorem scan_dot (cs : JsString) : scan .ready ('.'.toNat :: cs) = scan (.atom .any) cs := by
  rw [scan_ready, if_neg (by decide), if_pos rfl]

theorem scan_run (cs : JsString) : scan .ready ('.'.toNat :: '*'.toNat :: cs)
    = (scan .quantified cs).map (Piece.run :: ·) := by
  rw [scan_dot, scan_quantify rfl]
  rfl

theorem scan_anchor {c : Nat} (hc : c = '^'.toNat ∨ c = '$'.toNat) (cs : JsString) :
    ∃ q, least [q] = 0 ∧ scan .ready (c :: cs) = (scan .ready cs).map (q :: ·) := by
  rcases hc with rfl | rfl
  · refine ⟨.start, rfl, ?_⟩
    rw [scan_ready, if_neg (by decide), if_neg (by decide), if_pos rfl]
  · refine ⟨.stop, rfl, ?_⟩
    rw [scan_ready, if_neg (by decide), if_neg (by decide), if_neg (by decide), if_pos rfl]

theorem scan_none {c : Nat} (hc : c ∈ js "*+?()[|") (cs : JsString) :
    scan .ready (c :: cs) = none := by
  have hall : ∀ c ∈ js "*+?()[|", c ≠ '\\'.toNat ∧ c ≠ '.'.toNat ∧ c ≠ '^'.toNat
      ∧ c ≠ '$'.toNat := by decide
  obtain ⟨hslash, hdot, hstart, hstop⟩ := hall c hc
  rw [scan_ready, if_neg hslash, if_neg hdot, if_neg hstart, if_neg hstop, if_pos hc]

theorem Reads.strict {m' s' : Bool} {cs' : JsString} {p' : Pending} {ps' : List (Piece Nat)}
    (h : Reads back m' s' cs' p' ps')
    (hlt : Quantified.least ps + Quantified.least p'.flush + (letters cs').length
      < Quantified.least p.flush + (letters cs).length + Quantified.least ps') :
    Reads back m s cs p ps := by
  have hle := h.least_le
  exact Or.inl (by omega)

/-- The cases of a special character that is not escaped. -/
theorem special_cases : ∀ c ∈ special, c = ']'.toNat ∨ c = '\\'.toNat ∨ c = '.'.toNat
    ∨ (c = '^'.toNat ∨ c = '$'.toNat) ∨ c ∈ js "*+?()[|" := by decide

/-- The asterisk that is replaced. -/
theorem reads_replaced {r : JsString}
    (ih : ∀ p ps, scan p r = some ps → Reads back m true cs p ps)
    (h : scan p ('.'.toNat :: '*'.toNat :: r) = some ps) :
    Reads back m false ('*'.toNat :: cs) p ps := by
  obtain ⟨ps', h', rfl⟩ := exists_fresh h (not_quantifier (by decide) (by decide) (by decide) p)
  rw [scan_run] at h'
  obtain ⟨ps'', h'', rfl⟩ := Option.map_eq_some_iff.mp h'
  refine Reads.flush ?_
  rcases ih _ _ h'' with hlt | ⟨qs, tl, as, rfl, haligned⟩
  · refine Or.inl ?_
    rw [letters_star, least_cons]
    exact lt_of_eq_of_lt (Nat.zero_add _) hlt
  · exact Or.inr ⟨_, tl, as, rfl, .star haligned⟩

/-- A character behind which nothing can be read, or a quantifier. -/
theorem reads_quantifier {m' s' : Bool} {c : Nat} {r : JsString} (hc : c ∈ js "*+?()[|")
    (ih : ∀ p ps, scan p r = some ps → Reads back m' s' cs p ps)
    (h : scan p (c :: r) = some ps) : Reads back m s (c :: cs) p ps := by
  have hletters : (letters (c :: cs)).length + (if c = '*'.toNat then 1 else 0)
      = (letters cs).length + 1 := by
    split_ifs with hstar
    · rw [hstar, letters_star]
    · rw [letters_cons hstar, List.length_cons]
  cases hq : p.quantify c with
  | some q =>
      rw [scan_quantify hq] at h
      obtain ⟨ps', h', rfl⟩ := Option.map_eq_some_iff.mp h
      obtain ⟨hflush, hle, hzero, -⟩ := quantify_cases hq
      refine (ih _ _ h').strict ?_
      have hquantified : Quantified.least Pending.quantified.flush = 0 := rfl
      rw [least_cons]
      split_ifs at hletters with hstar
      · have hzero := hzero hstar
        omega
      · omega
  | none =>
      cases hlazy : p.lazy c with
      | true =>
          rw [scan_lazy hq hlazy] at h
          have hstar : ¬ c = '*'.toNat := by
            rintro rfl
            cases p <;> cases hlazy
          rw [if_neg hstar] at hletters
          refine (ih _ _ h).strict ?_
          have hready : Quantified.least Pending.ready.flush = 0 := rfl
          omega
      | false =>
          obtain ⟨ps', h', -⟩ := exists_fresh h ⟨hq, hlazy⟩
          rw [scan_none hc] at h'
          cases h'

/-- A backslash that is not escaped. -/
theorem reads_backslash
    (ih : ∀ d cs', cs = d :: cs' → ∀ s p ps,
      scan p (body true s cs' ++ ending back) = some ps → Reads back true s cs' p ps)
    (h : scan p ('\\'.toNat :: (body true s cs ++ ending back)) = some ps) :
    Reads back true s ('\\'.toNat :: cs) p ps := by
  obtain ⟨ps', h', rfl⟩ := exists_fresh h (not_quantifier (by decide) (by decide) (by decide) p)
  refine Reads.flush ?_
  have hletters : (letters ('\\'.toNat :: cs)).length = (letters cs).length + 1 := by
    rw [letters_cons (by decide), List.length_cons]
  cases cs with
  | nil =>
      have hbody : body true s [] ++ ending back = ending back := rfl
      rw [hbody, ending] at h'
      cases back with
      | false => cases h'
      | true =>
          cases h'
          exact Or.inr ⟨_, [], _, rfl, .quotedEnd⟩
  | cons d cs =>
      have hcs := ih d cs rfl
      by_cases hstar : d = '*'.toNat
      · subst hstar
        rw [letters_star] at hletters
        cases s with
        | true =>
            have hbody : body true true ('*'.toNat :: cs) ++ ending back
                = '*'.toNat :: (body true true cs ++ ending back) := by
              rw [body, if_pos rfl]
              rfl
            rw [hbody, scan_escape, if_pos (by decide)] at h'
            refine (hcs _ _ _ h').atom hletters fun qs tl as haligned => ?_
            exact .quoted haligned
        | false =>
            have hbody : body true false ('*'.toNat :: cs) ++ ending back
                = '.'.toNat :: '*'.toNat :: (body true true cs ++ ending back) := by
              rw [body, if_pos rfl]
              rfl
            rw [hbody, scan_escape, if_pos (by decide), scan_quantify rfl] at h'
            obtain ⟨ps'', h'', rfl⟩ := Option.map_eq_some_iff.mp h'
            refine (hcs _ _ _ h'').strict ?_
            have hready : Quantified.least Pending.ready.flush = 0 := rfl
            have hquantified : Quantified.least Pending.quantified.flush = 0 := rfl
            have hzero : Quantified.least [Piece.rep (.unit '.'.toNat) 0 none] = 0 := rfl
            rw [least_cons, hzero]
            omega
      · have hbody : body true s (d :: cs) ++ ending back
            = d :: (body true s cs ++ ending back) := by
          rw [body, if_neg hstar, if_neg fun h => nomatch h.2]
          rfl
        rw [letters_cons hstar, List.length_cons] at hletters
        rw [hbody, scan_escape] at h'
        split_ifs at h'
        refine (hcs _ _ _ h').strict ?_
        rw [least_atom]
        omega

/-- A special character that is not escaped takes less than itself, unless it is a
dot, a closing bracket, or a backslash in front of a character of its own. -/
theorem scan_body (back : Bool) (core : JsString) (m s : Bool) (p : Pending)
    (ps : List (Piece Nat)) (h : scan p (body m s core ++ ending back) = some ps) :
    Reads back m s core p ps := by
  match core with
  | [] =>
      have hbody : body m s [] ++ ending back = ending back := rfl
      rw [hbody, ending] at h
      cases back with
      | false =>
          cases h
          exact Or.inr ⟨[], [], [], (List.append_nil _).symm, .nil⟩
      | true =>
          obtain ⟨ps', h', rfl⟩ := exists_fresh h
            (not_quantifier (by decide) (by decide) (by decide) p)
          cases h'
          exact Or.inr ⟨[], [.stop], [], rfl, .nil⟩
  | c :: cs =>
      have ih := fun m s p ps => scan_body back cs m s p ps
      by_cases hstar : c = '*'.toNat
      · subst hstar
        cases s with
        | false =>
            have hbody : body m false ('*'.toNat :: cs) ++ ending back
                = '.'.toNat :: '*'.toNat :: (body m true cs ++ ending back) := by
              rw [body, if_pos rfl]
              rfl
            exact reads_replaced (ih m true) (hbody ▸ h)
        | true =>
            have hbody : body m true ('*'.toNat :: cs) ++ ending back
                = '*'.toNat :: (body m true cs ++ ending back) := by
              rw [body, if_pos rfl]
              rfl
            exact reads_quantifier (by decide) (ih m true) (hbody ▸ h)
      have hletters : (letters (c :: cs)).length = (letters cs).length + 1 := by
        rw [letters_cons hstar, List.length_cons]
      by_cases hescape : c ∈ special ∧ m = false
      · obtain ⟨hc, rfl⟩ := hescape
        have hbody : body false s (c :: cs) ++ ending back
            = '\\'.toNat :: c :: (body true s cs ++ ending back) := by
          rw [body, if_neg hstar, if_pos ⟨hc, rfl⟩]
          rfl
        rw [hbody] at h
        obtain ⟨ps', h', rfl⟩ := exists_fresh h
          (not_quantifier (by decide) (by decide) (by decide) p)
        rw [scan_escape, if_pos (special_punctuation c hc)] at h'
        exact ((ih true s _ _ h').atom hletters fun _ _ _ => .escaped hc).flush
      · have hbody : body m s (c :: cs) ++ ending back = c :: (body m s cs ++ ending back) := by
          rw [body, if_neg hstar, if_neg hescape]
          rfl
        rw [hbody] at h
        have hordinary : Ordinary c → Reads back m s (c :: cs) p ps := by
          intro hc
          have hne : ∀ d ∈ special, d ≠ ']'.toNat → c ≠ d := by
            rintro d hd hbracket rfl
            exact hbracket (hc.2 hd)
          obtain ⟨ps', h', rfl⟩ := exists_fresh h (not_quantifier hstar
            (hne _ (by decide) (by decide)) (hne _ (by decide) (by decide)) p)
          rw [scan_ordinary hc] at h'
          split_ifs at h' with hbrace
          have hbraced : ¬ (c = '\x7b'.toNat ∧ braced cs = true) := by
            rw [braced, counts_body] at hbrace
            exact hbrace
          refine ((ih m s _ _ h').atom hletters fun _ _ _ => .plain hc ?_ hbraced).flush
          intro hspecial
          by_contra hm
          exact hescape ⟨hspecial, eq_false_of_ne_true hm⟩
        by_cases hspecial : c ∈ special
        · obtain rfl : m = true := by
            by_contra hm
            exact hescape ⟨hspecial, eq_false_of_ne_true hm⟩
          rcases special_cases c hspecial with rfl | rfl | rfl | hanchor | hnone
          · exact hordinary ⟨hstar, fun _ => rfl⟩
          · refine reads_backslash (fun d cs' hcs s p ps => ?_) h
            subst hcs
            exact scan_body back cs' true s p ps
          · obtain ⟨ps', h', rfl⟩ := exists_fresh h
              (not_quantifier (by decide) (by decide) (by decide) p)
            rw [scan_dot] at h'
            exact ((ih true s _ _ h').atom hletters fun _ _ _ => .dot).flush
          · have hplain : c ≠ '+'.toNat ∧ c ≠ '?'.toNat := by
              rcases hanchor with rfl | rfl <;> decide
            obtain ⟨ps', h', rfl⟩ := exists_fresh h (not_quantifier hstar hplain.1 hplain.2 p)
            obtain ⟨q, hzero, hscan⟩ := scan_anchor hanchor (body true s cs ++ ending back)
            rw [hscan] at h'
            obtain ⟨ps'', h'', rfl⟩ := Option.map_eq_some_iff.mp h'
            refine ((ih true s _ _ h'').strict ?_).flush
            have hready : Quantified.least Pending.ready.flush = 0 := rfl
            rw [least_cons, hzero]
            omega
          · exact reads_quantifier hnone (ih true s) h
        · exact hordinary ⟨hstar, fun h => absurd h hspecial⟩

end Reading

/-! ## Texts of globs -/

section Texts

variable {v x left right : JsString}

theorem globToken_star : globToken '*'.toNat = .run := if_pos rfl

theorem globToken_ne {c : Nat} (hc : c ≠ '*'.toNat) : globToken c = .unit c := if_neg hc

theorem unit_ne_run (c : Nat) : (Wildcard.Token.unit c : Wildcard.Token Nat) ≠ .run :=
  fun h => nomatch h

/-- A text of a glob has its letters, in their order. -/
theorem Glob.sublist (h : Glob v x) : (letters v).Sublist x := by
  induction v generalizing x with
  | nil =>
      rw [Wildcard.matches_nil.mp h]
      exact List.Sublist.slnil
  | cons c v ih =>
      rw [Glob, List.map_cons] at h
      by_cases hc : c = '*'.toNat
      · rw [hc, globToken_star] at h
        obtain ⟨u, w, rfl, hw⟩ := Wildcard.matches_run.mp h
        rw [hc, letters_star]
        exact (ih hw).trans (List.sublist_append_right u w)
      · rw [globToken_ne hc] at h
        obtain ⟨b, w, rfl, hb, hw⟩ := (Wildcard.matches_cons (unit_ne_run c)).mp h
        obtain rfl : c = b := hb
        rw [letters_cons hc]
        exact (ih hw).cons_cons c

theorem glob_letters (v : JsString) : Glob v (letters v) := by
  induction v with
  | nil => exact .nil
  | cons c v ih =>
      rw [Glob, List.map_cons]
      by_cases hc : c = '*'.toNat
      · rw [hc, letters_star, globToken_star]
        exact .skip ih
      · rw [letters_cons hc, globToken_ne hc]
        exact .unit ih

theorem map_globToken (h : '*'.toNat ∉ v) : v.map globToken = v.map .unit :=
  List.map_congr_left fun _ hc => globToken_ne fun heq => h (heq ▸ hc)

theorem matches_stars (h : Stars left) :
    Wildcard.Matches (left.map globToken) x ↔ (left = [] → x = []) := by
  induction left generalizing x with
  | nil => simp [Wildcard.matches_nil]
  | cons c left ih =>
      obtain ⟨rfl, hleft⟩ := List.forall_mem_cons.mp h
      rw [List.map_cons, globToken_star, Wildcard.matches_run]
      refine iff_of_true ⟨x, [], (List.append_nil x).symm, (ih hleft).mpr fun _ => rfl⟩ ?_
      exact fun h => nomatch h

theorem glob_parts (h : Parts v left right) : Glob v x ↔ ∃ before u after,
    x = before ++ (u ++ after) ∧ Glob (core v) u ∧ (front v = true → before = [])
      ∧ (back v = true → after = []) := by
  have hsplit : v.map globToken = left.map globToken
      ++ ((core v).map globToken ++ right.map globToken) := by
    conv_lhs => rw [h.split]
    rw [List.map_append, List.map_append]
  rw [Glob, hsplit, Wildcard.matches_append]
  constructor
  · rintro ⟨before, t, rfl, hbefore, ht⟩
    obtain ⟨u, after, rfl, hu, hafter⟩ := Wildcard.matches_append.mp ht
    exact ⟨before, u, after, rfl, hu,
      fun hf => (matches_stars h.leftStars).mp hbefore (h.atFront.mp hf),
      fun hb => (matches_stars h.rightStars).mp hafter (h.atBack.mp hb)⟩
  · rintro ⟨before, u, after, rfl, hu, hf, hb⟩
    exact ⟨before, u ++ after, rfl,
      (matches_stars h.leftStars).mpr fun hleft => hf (h.atFront.mpr hleft),
      Wildcard.Matches.append hu
        ((matches_stars h.rightStars).mpr fun hright => hb (h.atBack.mpr hright))⟩

theorem glob_core (h : Parts v left right) (hx : Glob (core v) x) : Glob v x :=
  (glob_parts h).mpr ⟨[], x, [], (List.append_nil x).symm, hx, fun _ => rfl, fun _ => rfl⟩

theorem letters_core (h : Parts v left right) : letters v = letters (core v) := by
  have hstars : ∀ {s : JsString}, Stars s → letters s = [] := fun hs =>
    List.filter_eq_nil_iff.mpr fun _ hc hne => of_decide_eq_true hne (hs _ hc)
  have hsplit : letters v = letters left ++ (letters (core v) ++ letters right) := by
    conv_lhs => rw [h.split]
    rw [letters, List.filter_append, List.filter_append]
    rfl
  rw [hsplit, hstars h.leftStars, hstars h.rightStars, List.nil_append, List.append_nil]

end Texts

/-! ## Values that are printed as they are meant -/

/-- What is behind the character that is escaped. -/
def unescaped (escaped : Bool) (s : JsString) : JsString :=
  if escaped then s else (s.dropWhile (· ∉ special)).tail

/-- Nothing in the text is left to escape or to replace. -/
structure Literal (escaped : Bool) (s : JsString) : Prop where
  noStar : '*'.toNat ∉ s
  brackets : ∀ c ∈ unescaped escaped s, c ∈ special → c = ']'.toNat
  braces : ∀ cs, '\x7b'.toNat :: cs <:+ s → braced cs = false

/-- Between the asterisks at its ends the value has no other asterisk, behind its
first special character no special one but closing brackets, and no count in
braces. -/
def Plain (v : JsString) : Prop := Literal false (core v)

section Literals

variable {c : Nat} {cs : JsString} {m s back : Bool} {p : Pending}

theorem Literal.tail (h : Literal m (c :: cs)) (hc : c ∉ special) : Literal m cs where
  noStar := fun hmem => h.noStar (List.mem_cons_of_mem _ hmem)
  brackets := by
    intro d hd
    refine h.brackets d ?_
    cases m with
    | true => exact List.mem_cons_of_mem _ hd
    | false =>
        have hdrop : unescaped false (c :: cs) = unescaped false cs := by
          have hkept : decide (c ∉ special) = true := decide_eq_true hc
          rw [unescaped, unescaped, if_neg Bool.false_ne_true, if_neg Bool.false_ne_true]
          exact congrArg List.tail (List.dropWhile_cons_of_pos hkept)
        rw [hdrop]
        exact hd
  braces := fun cs' h' => h.braces cs' (h'.trans (List.suffix_cons c cs))

theorem unescaped_special (hc : c ∈ special) : unescaped false (c :: cs) = cs := by
  have hdropped : ¬ decide (c ∉ special) = true := by simpa using hc
  rw [unescaped, if_neg Bool.false_ne_true, List.dropWhile_cons, if_neg hdropped, List.tail_cons]

theorem Literal.behind (h : Literal m (c :: cs)) (hc : c ∈ special) : Literal true cs where
  noStar := fun hmem => h.noStar (List.mem_cons_of_mem _ hmem)
  brackets := by
    intro d hd
    refine h.brackets d ?_
    cases m with
    | true => exact List.mem_cons_of_mem _ hd
    | false =>
        rw [unescaped_special hc]
        exact hd
  braces := fun cs' h' => h.braces cs' (h'.trans (List.suffix_cons c cs))

theorem suffix_cons_cases {d : Nat} {r : JsString} (h : d :: r <:+ c :: cs) :
    (d = c ∧ r = cs) ∨ d :: r <:+ cs := by
  rcases List.suffix_cons_iff.mp h with h | h
  · exact Or.inl ⟨(List.cons.inj h).1, (List.cons.inj h).2⟩
  · exact Or.inr h

theorem Literal.cons_special (hc : c ∈ special) (h : Literal true cs) : Literal false (c :: cs) where
  noStar := by
    rw [List.mem_cons, not_or]
    exact ⟨(special_ne_star hc).symm, h.noStar⟩
  brackets := by
    rw [unescaped_special hc]
    exact h.brackets
  braces := by
    intro r hr
    rcases suffix_cons_cases hr with ⟨rfl, -⟩ | hr
    · exact absurd hc (by decide)
    · exact h.braces r hr

theorem Literal.cons_ordinary (hc : Ordinary c) (hm : c ∈ special → m = true)
    (hbrace : ¬ (c = '\x7b'.toNat ∧ braced cs = true)) (h : Literal m cs) : Literal m (c :: cs) where
  noStar := by
    rw [List.mem_cons, not_or]
    exact ⟨hc.1.symm, h.noStar⟩
  brackets := by
    intro d hd hspecial
    cases m with
    | true =>
        rcases List.mem_cons.mp hd with rfl | hd
        · exact hc.2 hspecial
        · exact h.brackets d hd hspecial
    | false =>
        have hplain : c ∉ special := fun h => nomatch hm h
        have hkept : decide (c ∉ special) = true := decide_eq_true hplain
        rw [unescaped, if_neg Bool.false_ne_true, List.dropWhile_cons, if_pos hkept] at hd
        exact h.brackets d hd hspecial
  braces := by
    intro r hr
    rcases suffix_cons_cases hr with ⟨rfl, rfl⟩ | hr
    · exact eq_false_of_ne_true fun hbraced => hbrace ⟨rfl, hbraced⟩
    · exact h.braces r hr

/-- The pieces of a text that stands for itself. -/
def unitPieces (s : JsString) : List (Piece Nat) := s.map fun c => .one (.unit c)

theorem scan_literal (h : Literal m cs) : scan p (body m s cs ++ ending back)
    = some (p.flush ++ (unitPieces cs ++ endPieces back)) := by
  induction cs generalizing m p with
  | nil =>
      have hbody : body m s [] ++ ending back = ending back := rfl
      rw [hbody]
      cases back with
      | false => exact congrArg some (List.append_nil _).symm
      | true =>
          obtain ⟨hq, hl⟩ := @not_quantifier '$'.toNat (by decide) (by decide) (by decide) p
          exact scan_fresh hq hl []
  | cons c cs ih =>
      have hstar : c ≠ '*'.toNat := fun heq => h.noStar (heq ▸ List.mem_cons_self)
      have hatom : ∀ {m'}, Literal m' cs →
          Option.map (p.flush ++ ·) (scan (.atom (.unit c)) (body m' s cs ++ ending back))
            = some (p.flush ++ (unitPieces (c :: cs) ++ endPieces back)) := by
        intro m' hcs
        rw [ih hcs]
        rfl
      rw [body, if_neg hstar]
      split_ifs with hescape
      · obtain ⟨hq, hl⟩ := @not_quantifier '\\'.toNat (by decide) (by decide) (by decide) p
        rw [List.cons_append, List.cons_append, scan_fresh hq hl, scan_escape,
          if_pos (special_punctuation c hescape.1)]
        exact hatom (h.behind hescape.1)
      · have hordinary : Ordinary c := by
          refine ⟨hstar, fun hspecial => h.brackets c ?_ hspecial⟩
          cases m with
          | true => exact List.mem_cons_self
          | false => exact absurd ⟨hspecial, rfl⟩ hescape
        have hcs : Literal m cs := by
          by_cases hspecial : c ∈ special
          · cases m with
            | true => exact h.behind hspecial
            | false => exact absurd ⟨hspecial, rfl⟩ hescape
          · exact h.tail hspecial
        have hne : ∀ d ∈ special, d ≠ ']'.toNat → c ≠ d := by
          rintro d hd hbracket rfl
          exact hbracket (hordinary.2 hd)
        obtain ⟨hq, hl⟩ := not_quantifier hstar (hne _ (by decide) (by decide))
          (hne _ (by decide) (by decide)) p
        have hbrace : ¬ (c = '\x7b'.toNat ∧ braced (body m s cs ++ ending back) = true) := by
          rintro ⟨rfl, hbraced⟩
          rw [braced, counts_body] at hbraced
          exact absurd hbraced (ne_true_of_eq_false (h.braces cs (List.suffix_refl _)))
        rw [List.cons_append, scan_fresh hq hl, scan_ordinary hordinary, if_neg hbrace]
        exact hatom hcs

end Literals

/-! ## Values that are printed otherwise -/

section Necessity

variable {m s back : Bool} {cs a b : JsString} {qs tl : List (Piece Nat)} {as : List (Atom Nat)}

theorem forced_units {x : JsString}
    (h : ∀ y, List.Forall₂ (Atom.Accepts dot) as y → y = x) : as = x.map .unit := by
  have hany : ∀ {c : Nat}, c = 97 ∨ c = 98 → Atom.Accepts dot .any c := by
    rintro c (rfl | rfl)
    · show 97 ∉ [10, 13, 0x2028, 0x2029]
      decide
    · show 98 ∉ [10, 13, 0x2028, 0x2029]
      decide
  have htext : ∀ as : List (Atom Nat), ∃ y, List.Forall₂ (Atom.Accepts dot) as y := by
    intro as
    induction as with
    | nil => exact ⟨[], .nil⟩
    | cons a as ih =>
        obtain ⟨y, hy⟩ := ih
        cases a with
        | unit c => exact ⟨c :: y, .cons rfl hy⟩
        | any => exact ⟨97 :: y, .cons (hany (Or.inl rfl)) hy⟩
  induction as generalizing x with
  | nil =>
      rw [← h [] .nil]
      rfl
  | cons a as ih =>
      obtain ⟨y, hy⟩ := htext as
      cases a with
      | any =>
          have h97 := h (97 :: y) (.cons (hany (Or.inl rfl)) hy)
          have h98 := h (98 :: y) (.cons (hany (Or.inr rfl)) hy)
          exact absurd (List.cons.inj (h97.trans h98.symm)).1 (by decide)
      | unit c =>
          have hx := h (c :: y) (.cons rfl hy)
          rw [← hx, List.map_cons, ih fun y' hy' =>
            (List.cons.inj ((h (c :: y') (.cons rfl hy')).trans hx.symm)).2]

/-- Pieces in a row with the letters, and each for its letter. -/
theorem Aligned.literal (h : Aligned back m s cs qs tl as) (has : as = (letters cs).map .unit) :
    tl = endPieces back ∧ ((Literal m cs ∧ qs = unitPieces cs)
      ∨ (s = false ∧ ∃ a b, cs = a ++ '*'.toNat :: b ∧ '*'.toNat ∉ a ∧ '*'.toNat ∉ b
        ∧ qs = unitPieces a ++ .run :: unitPieces b)) := by
  have hnext : ∀ {c : Nat} {cs : JsString} {as : List (Atom Nat)}, c ≠ '*'.toNat →
      Atom.unit c :: as = (letters (c :: cs)).map .unit → as = (letters cs).map .unit := by
    intro c cs as hc h
    rw [letters_cons hc, List.map_cons] at h
    exact (List.cons.inj h).2
  -- the piece for a letter in front
  have hcons : ∀ {m m' s : Bool} {c : Nat} {cs : JsString} {qs : List (Piece Nat)}, c ≠ '*'.toNat →
      (Literal m' cs → Literal m (c :: cs)) →
      ((Literal m' cs ∧ qs = unitPieces cs) ∨ (s = false ∧ ∃ a b, cs = a ++ '*'.toNat :: b
        ∧ '*'.toNat ∉ a ∧ '*'.toNat ∉ b ∧ qs = unitPieces a ++ .run :: unitPieces b)) →
      (Literal m (c :: cs) ∧ Piece.one (.unit c) :: qs = unitPieces (c :: cs))
        ∨ (s = false ∧ ∃ a b, c :: cs = a ++ '*'.toNat :: b ∧ '*'.toNat ∉ a ∧ '*'.toNat ∉ b
          ∧ Piece.one (.unit c) :: qs = unitPieces a ++ .run :: unitPieces b) := by
    rintro m m' s c cs qs hc hliteral (⟨h, rfl⟩ | ⟨hs, a, b, rfl, ha, hb, rfl⟩)
    · exact Or.inl ⟨hliteral h, rfl⟩
    · refine Or.inr ⟨hs, c :: a, b, rfl, ?_, hb, rfl⟩
      rw [List.mem_cons, not_or]
      exact ⟨hc.symm, ha⟩
  induction h with
  | nil =>
      refine ⟨rfl, Or.inl ⟨⟨List.not_mem_nil, fun c hc => ?_, fun cs hcs => ?_⟩, rfl⟩⟩
      · rename_i m s
        cases m <;> exact absurd hc List.not_mem_nil
      · exact absurd hcs.length_le (by simp)
  | @star m cs qs tl as _ ih =>
      rw [letters_star] at has
      obtain ⟨htl, ⟨h, rfl⟩ | ⟨hs, -⟩⟩ := ih has
      · exact ⟨htl, Or.inr ⟨rfl, [], cs, rfl, List.not_mem_nil, h.noStar, rfl⟩⟩
      · cases hs
  | @escaped s c cs qs tl as hc _ ih =>
      obtain ⟨htl, h⟩ := ih (hnext (special_ne_star hc) has)
      exact ⟨htl, hcons (special_ne_star hc) (Literal.cons_special hc) h⟩
  | @plain m s c cs qs tl as hc hm hbrace _ ih =>
      obtain ⟨htl, h⟩ := ih (hnext hc.1 has)
      exact ⟨htl, hcons hc.1 (Literal.cons_ordinary hc hm hbrace) h⟩
  | dot _ _ =>
      rw [letters_cons (by decide), List.map_cons] at has
      cases (List.cons.inj has).1
  | quoted _ _ =>
      rw [letters_cons (by decide), List.map_cons] at has
      exact absurd (Atom.unit.inj (List.cons.inj has).1) (by decide)
  | quotedEnd => exact absurd (Atom.unit.inj (List.cons.inj has).1) (by decide)

theorem shift_eq {c w : Nat} {l : JsString} (h : l ++ [w] = c :: l) : w = c := by
  induction l generalizing c with
  | nil => exact (List.cons.inj h).1
  | cons d l ih =>
      obtain ⟨hhead, htail⟩ := List.cons.inj h
      exact (ih htail).trans hhead

theorem test_front (front : Bool) (r : List (Piece Nat)) (x : JsString) :
    Test dot ((if front then [.start] else []) ++ r) x ↔ ∃ before t, x = before ++ t
      ∧ (front = true → before = []) ∧ MatchesAt dot before.isEmpty r t := by
  refine exists₂_congr fun before t => and_congr_right fun _ => ?_
  rw [matchesAt_front, List.isEmpty_iff]

/-- A line terminator between the parts around a run is missed, unless a part
starts or ends with it where it could also be outside. -/
theorem run_misses (front : Bool) {c d w : Nat} (hw : Like.LineTerminator w) (hc : w ≠ c)
    (hd : w ≠ d) (a b : JsString) : ¬ Test dot ((if front then [.start] else [])
      ++ (unitPieces (c :: a) ++ .run :: unitPieces (d :: b) ++ endPieces back))
      (c :: a ++ w :: d :: b) := by
  intro h
  obtain ⟨before, t₁, hx, -, h₁⟩ := (test_front _ _ _).mp h
  rw [List.append_assoc] at h₁
  obtain ⟨t₂, rfl, h₂⟩ := matchesAt_units.mp h₁
  rw [List.cons_append] at h₂
  obtain ⟨u, t₃, rfl, hu, h₃⟩ := matchesAt_run.mp h₂
  obtain ⟨t, rfl, -⟩ := matchesAt_units.mp h₃
  have hlen := congrArg List.length hx
  simp only [List.length_append, List.length_cons] at hlen
  cases before with
  | nil =>
      have hrest := List.append_cancel_left (hx.trans (List.nil_append _))
      cases u with
      | nil => exact hd (List.cons.inj hrest).1
      | cons e u =>
          obtain rfl := (List.cons.inj hrest).1
          exact hu w List.mem_cons_self hw
  | cons e before =>
      rw [List.length_cons] at hlen
      have hnil : before = [] ∧ u = [] ∧ t = [] := by
        refine ⟨?_, ?_, ?_⟩ <;> refine List.length_eq_zero_iff.mp ?_ <;> omega
      obtain ⟨rfl, rfl, rfl⟩ := hnil
      have hwhole : (c :: a ++ [w]) ++ (d :: b) = (e :: (c :: a)) ++ (d :: b) := by simpa using hx
      have hshift := List.append_cancel_right hwhole
      have he : c = e := (List.cons.inj hshift).1
      subst he
      exact hc (shift_eq hshift)

/-- There are enough line terminators. -/
theorem exists_terminator (c d : Nat) : ∃ w, Like.LineTerminator w ∧ w ≠ c ∧ w ≠ d := by
  have hmem : ∀ w ∈ [10, 13, 0x2028], Like.LineTerminator w := by
    intro w hw
    show w ∈ [10, 13, 0x2028, 0x2029]
    revert w
    decide
  by_cases h : 10 ≠ c ∧ 10 ≠ d
  · exact ⟨10, hmem 10 (by decide), h⟩
  · by_cases h' : 13 ≠ c ∧ 13 ≠ d
    · exact ⟨13, hmem 13 (by decide), h'⟩
    · exact ⟨0x2028, hmem _ (by decide), by omega, by omega⟩

end Necessity

/-! ## Which values are printed as they are meant -/

theorem scan_front (front : Bool) (t : JsString) :
    scan .ready ((if front then ['^'.toNat] else []) ++ t)
      = (scan .ready t).map ((if front then [.start] else []) ++ ·) := by
  cases front with
  | false => exact (map_ready _).symm
  | true =>
      show scan .ready ('^'.toNat :: t) = _
      rw [scan_ready, if_neg (by decide), if_neg (by decide), if_pos rfl]
      rfl

theorem globs_iff {E : Engine} {v : JsString} (hv : '*'.toNat ∈ v) :
    Globs E v ↔ ∃ test, E.compile (globSource v) = some test ∧ ∀ x, test x ↔ Glob v x := by
  unfold Globs stringToRegexp
  rw [if_neg (not_not.mpr hv)]
  cases E.compile (globSource v) with
  | none => exact iff_of_false (fun ⟨_, h, _⟩ => nomatch h) fun ⟨_, h, _⟩ => nomatch h
  | some test =>
      constructor
      · rintro ⟨test', h, hall⟩
        cases h
        exact ⟨test, rfl, hall⟩
      · rintro ⟨test', h, hall⟩
        cases h
        exact ⟨test, rfl, hall⟩

/-- The expression of a value whose source is read. -/
theorem globs_iff_test {E : Engine} {v left right : JsString} (hv : '*'.toNat ∈ v)
    (hparts : Parts v left right) {ps : List (Piece Nat)}
    (hps : scan .ready (body false false (core v) ++ ending (back v)) = some ps) :
    Globs E v ↔ ∀ x, Test dot ((if front v then [.start] else []) ++ ps) x ↔ Glob v x := by
  have hscan : scan .ready (globSource v) = some ((if front v then [.start] else []) ++ ps) := by
    rw [globSource_eq hparts, scan_front]
    exact congrArg _ hps
  obtain ⟨test, htest, hall⟩ := E.rows _ _ hscan
  rw [globs_iff hv, htest]
  constructor
  · rintro ⟨test', h, h'⟩ x
    cases h
    rw [← hall, h']
  · exact fun h => ⟨test, rfl, fun x => by rw [hall, h]⟩

theorem globs_of_plain (E : Engine) {v : JsString} (hv : '*'.toNat ∈ v) (h : Plain v) :
    Globs E v := by
  obtain ⟨left, right, hparts⟩ := exists_parts v
  refine (globs_iff_test hv hparts (scan_literal h)).mpr fun x => ?_
  rw [test_front, glob_parts hparts]
  constructor
  · rintro ⟨before, t, rfl, hfront, ht⟩
    obtain ⟨after, rfl, hafter⟩ := matchesAt_units.mp ht
    refine ⟨before, core v, after, rfl, ?_, hfront, (matchesAt_back _).mp hafter⟩
    rw [Glob, map_globToken h.noStar, Wildcard.matches_units]
  · rintro ⟨before, u, after, rfl, hu, hfront, hback⟩
    rw [Glob, map_globToken h.noStar, Wildcard.matches_units] at hu
    subst hu
    exact ⟨before, core v ++ after, rfl, hfront,
      matchesAt_units.mpr ⟨after, rfl, (matchesAt_back _).mpr hback⟩⟩

/-- A run between two parts misses a text of the glob. -/
theorem not_forall_of_run {v left right a b : JsString} (hparts : Parts v left right)
    (hsplit : core v = a ++ '*'.toNat :: b) (ha : '*'.toNat ∉ a) (hb : '*'.toNat ∉ b) :
    ¬ ∀ x, Test dot ((if front v then [.start] else [])
      ++ (unitPieces a ++ .run :: unitPieces b ++ endPieces (back v))) x ↔ Glob v x := by
  intro htest
  obtain ⟨c, a, rfl⟩ : ∃ c a', a = c :: a' := by
    refine List.exists_cons_of_ne_nil fun hnil => hparts.head ?_
    rw [hsplit, hnil]
    rfl
  obtain ⟨d, b, rfl⟩ : ∃ d b', b = d :: b' := by
    refine List.exists_cons_of_ne_nil fun hnil => hparts.last ?_
    rw [hsplit, hnil, List.getLast?_append]
    rfl
  obtain ⟨w, hw, hc, hd⟩ := exists_terminator c d
  have hcore : Glob (core v) (c :: a ++ w :: d :: b) := by
    rw [hsplit, Glob, List.map_append, map_globToken ha, @List.map_cons _ _ _ '*'.toNat,
      globToken_star, map_globToken hb, Wildcard.matches_append]
    refine ⟨c :: a, w :: d :: b, rfl, (Wildcard.matches_units _).mpr rfl, ?_⟩
    exact Wildcard.matches_run.mpr ⟨[w], d :: b, rfl, (Wildcard.matches_units _).mpr rfl⟩
  exact run_misses _ hw hc hd a b ((htest _).mpr (glob_core hparts hcore))

theorem plain_of_globs {E : Engine} {v : JsString} (hv : '*'.toNat ∈ v)
    (hread : (scan .ready (globSource v)).isSome = true) (h : Globs E v) : Plain v := by
  obtain ⟨left, right, hparts⟩ := exists_parts v
  obtain ⟨ps, hps⟩ : ∃ ps, scan .ready (body false false (core v) ++ ending (back v)) = some ps := by
    rw [globSource_eq hparts, scan_front, Option.isSome_map] at hread
    exact Option.isSome_iff_exists.mp hread
  have htest := (globs_iff_test hv hparts hps).mp h
  have hcore : Glob (core v) (letters (core v)) := glob_letters _
  -- the shortest text that is found is no shorter than the glob allows
  have hleast : ¬ least ps < (letters (core v)).length := by
    intro hlt
    obtain ⟨u, hlen, hu⟩ := ((htest _).mpr (glob_core hparts hcore)).shrink
    have hle := ((htest u).mp hu).sublist.length_le
    have hfront : least (if front v then [.start] else [] : List (Piece Nat)) = 0 := by
      cases front v <;> rfl
    rw [hlen, least_append, hfront, letters_core hparts] at hle
    omega
  have hready : least Pending.ready.flush = 0 := rfl
  rcases scan_body _ _ _ _ _ _ hps with hlt | ⟨qs, tl, as, rfl, haligned⟩
  · exact absurd (by omega) hleast
  -- so each letter has its piece, and a text with a unit for each piece is found
  have hunits : as = (letters (core v)).map .unit := by
    refine forced_units fun y hy => ?_
    obtain ⟨b, rfl⟩ := haligned.closing
    have hfound : Test dot ((if front v then [.start] else []) ++ (qs ++ endPieces b)) y := by
      refine (test_front _ _ _).mpr ⟨[], y, rfl, fun _ => rfl, ?_⟩
      have hend : MatchesAt dot (true && y.isEmpty) (endPieces b) [] :=
        (matchesAt_back b).mpr fun _ => rfl
      have hfill := haligned.spread.fill hy hend
      rw [List.append_nil] at hfill
      exact hfill
    have hsub := ((htest y).mp hfound).sublist
    rw [letters_core hparts] at hsub
    exact (hsub.eq_of_length (by rw [← hy.length_eq, haligned.length])).symm
  obtain ⟨rfl, ⟨hliteral, -⟩ | ⟨-, a, b, hsplit, ha, hb, rfl⟩⟩ := haligned.literal hunits
  · exact hliteral
  · exact absurd htest (not_forall_of_run hparts hsplit ha hb)

/-- The expression of a value with an asterisk finds the texts of the glob if the
value is plain, and, where its source is a row of quantified atoms, only then. -/
theorem stringToRegexp_iff (E : Engine) {v : JsString} (hv : '*'.toNat ∈ v) :
    (Plain v → Globs E v)
      ∧ ((scan .ready (globSource v)).isSome = true → Globs E v → Plain v) :=
  ⟨globs_of_plain E hv, plain_of_globs hv⟩

/-- An engine that takes rows only. -/
def rowEngine : Engine where
  compile := fun source => (scan .ready source).map (Test dot)
  rows := fun source pieces h => ⟨Test dot pieces, by rw [h]; rfl, fun _ => Iff.rfl⟩

theorem stringToRegexp_dot : (Plain (js "a.b*") → Globs rowEngine (js "a.b*"))
    ∧ ((scan .ready (globSource (js "a.b*"))).isSome = true →
      Globs rowEngine (js "a.b*") → Plain (js "a.b*")) :=
  stringToRegexp_iff rowEngine (by decide)

/-- The second dot is not escaped. -/
theorem second_dot_unescaped : ¬ ∃ E : Engine, Globs E (js "a.b.c*") := by
  rintro ⟨E, h⟩
  have hplain : Plain (js "a.b.c*") := plain_of_globs (by decide) (by decide) h
  exact absurd (hplain.brackets '.'.toNat (by decide) (by decide)) (by decide)

end QueryGlob

end GenieAcs
