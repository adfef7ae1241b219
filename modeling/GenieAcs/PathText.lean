import GenieAcs.JsonText
import GenieAcs.PathSet
import Mathlib.Data.List.DropRight
import Mathlib.Data.List.Lex
import Mathlib.Data.List.Sort
import Mathlib.Data.Prod.Lex

/-!
# Texts of paths

A segment of a path is a fragment or an alias: a list of pairs of a path and a
value. The parser goes over the text of a path from left to right and calls
itself for the paths within aliases. `scanPath` and `scanAlias` are its two
loops with enough fuel, and with one equation for each thing they can meet.
-/

namespace GenieAcs

/-! ## Paths with aliases -/

/-- A fragment, or pairs of a path and the value it must have. -/
inductive Segment where
  | name (s : JsString)
  | aliases (pairs : List (List Segment × JsString))

abbrev Segments := List Segment

abbrev Alias := List (Segments × JsString)

mutual

/-- The text of a segment; the values are printed by `JSON.stringify`. -/
def Segment.toText : Segment → JsString
  | .name s => s
  | .aliases pairs => js "[" ++ aliasText pairs ++ js "]"

/-- `toString`. -/
def pathText : List Segment → JsString
  | [] => []
  | s :: segments => s.toText ++ pathTail segments

def pathTail : List Segment → JsString
  | [] => []
  | s :: segments => js "." ++ s.toText ++ pathTail segments

def aliasText : List (List Segment × JsString) → JsString
  | [] => []
  | p :: pairs => pairText p ++ aliasTail pairs

def aliasTail : List (List Segment × JsString) → JsString
  | [] => []
  | p :: pairs => js "," ++ pairText p ++ aliasTail pairs

def pairText : List Segment × JsString → JsString
  | (path, value) => pathText path ++ js ":" ++ jsonString value

end

mutual

def Segment.values : Segment → List JsString
  | .name _ => []
  | .aliases pairs => aliasValues pairs

/-- The values of the aliases of a path, also of those within aliases. -/
def pathValues : List Segment → List JsString
  | [] => []
  | s :: segments => s.values ++ pathValues segments

def aliasValues : List (List Segment × JsString) → List JsString
  | [] => []
  | p :: pairs => pairValues p ++ aliasValues pairs

def pairValues : List Segment × JsString → List JsString
  | (path, value) => value :: pathValues path

end

/-- Not after `b` by the texts of the paths, then by the values. -/
def aliasOrder (a b : Segments × JsString) : Prop :=
  toLex (pathText a.1, a.2) ≤ toLex (pathText b.1, b.2)

instance : DecidableRel aliasOrder := fun a b =>
  inferInstanceAs (Decidable (toLex (pathText a.1, a.2) ≤ toLex (pathText b.1, b.2)))

def sortAlias (found : Alias) : Alias := found.insertionSort aliasOrder

/-! ## Parsing

A position in the pattern is what is left of the pattern there.
-/

def legalChar (c : Nat) : Bool :=
  (97 ≤ c ∧ c ≤ 122) ∨ (65 ≤ c ∧ c ≤ 90) ∨ (48 ≤ c ∧ c ≤ 57) ∨ c = 95 ∨ c = 45

/-- `String.prototype.trim`. -/
def trimChar (c : Nat) : Bool :=
  (9 ≤ c ∧ c ≤ 13) ∨ c = 32 ∨ c = 160 ∨ c = 5760 ∨ (8192 ≤ c ∧ c ≤ 8202) ∨ c = 8232 ∨ c = 8233
    ∨ c = 8239 ∨ c = 8287 ∨ c = 12288 ∨ c = 65279

def trim (s : JsString) : JsString := (s.dropWhile trimChar).rdropWhile trimChar

def skipSpaces (i : JsString) : JsString := i.dropWhile (· = 32)

/-- The text up to the first quote that no backslash precedes, and what is left
behind it. -/
def closeQuote (prev : Nat) : JsString → Option (JsString × JsString)
  | [] => none
  | c :: cs =>
      if c = '"'.toNat ∧ prev ≠ '\\'.toNat then some ([c], cs)
      else (closeQuote c cs).map fun r => (c :: r.1, r.2)

def bareChar (c : Nat) : Bool := c ≠ ']'.toNat ∧ c ≠ ','.toNat

/-- `none` stands for the value `null`. -/
def parseAliasValue (index : JsString) : Option (JsString × JsString) :=
  match skipSpaces index with
  | c :: cs =>
      if c = '"'.toNat then do
        let (text, j) ← closeQuote c cs
        let v ← parseJsonString (c :: text)
        some (v, j)
      else some (trim (index.takeWhile bareChar), index.dropWhile bareChar)
  | [] => some (trim (index.takeWhile bareChar), index.dropWhile bareChar)

/-- `none` stands for the path `null`. -/
def parseAliasPath (parsePath : JsString → Segments × JsString) (index : JsString) :
    Option (Segments × JsString) :=
  let i := skipSpaces index
  let (segments, idx) := parsePath i
  if idx.length = i.length then none
  else
    let i := skipSpaces idx
    if i.headD 0 ≠ ':'.toNat then none else some (segments, i.tail)

mutual

/-- The loop of `parsePath`: `index` is where the last segment ended, `seg` what
was read of the next one, and `wildcard` holds right behind an asterisk that
starts a segment. -/
def parsePathFrom : Nat → JsString → JsString → JsString → Bool → Segments → Segments × JsString
  | 0, index, _, _, _, segments => (segments, index)
  | n + 1, index, i, seg, wildcard, segments =>
      let c := i.headD 0
      if c = '['.toNat ∧ seg = [] then
        let (found, idx) := parseAliasFrom n i.tail i.tail []
        if idx.headD 0 ≠ ']'.toNat then (segments, index)
        -- the character behind the bracket is skipped, whatever it is
        else if idx.tail = [] then (segments ++ [.aliases found], [])
        else parsePathFrom n idx.tail idx.tail.tail [] false (segments ++ [.aliases found])
      else if c = '*'.toNat ∧ seg = [] then parsePathFrom n index i.tail [c] true segments
      else if legalChar c = false ∨ wildcard = true then
        if seg = [] then (segments, index)
        else if c ≠ '.'.toNat then (segments ++ [.name seg], i)
        else parsePathFrom n i i.tail [] false (segments ++ [.name seg])
      else parsePathFrom n index i.tail (seg ++ [c]) false segments

/-- The loop of `parseAlias`. -/
def parseAliasFrom : Nat → JsString → JsString → Alias → Alias × JsString
  | 0, index, _, found => (sortAlias found, index)
  | n + 1, index, i, found =>
      match parseAliasPath (fun i => parsePathFrom n i i [] false []) i with
      | none => (sortAlias found, index)
      | some (path, i) =>
          match parseAliasValue i with
          | none => (sortAlias found, index)
          | some (value, i) =>
              if i.headD 0 ≠ ','.toNat then (sortAlias (found ++ [(path, value)]), i)
              else parseAliasFrom n i i.tail (found ++ [(path, value)])

end

/-- `parse` without its caches; `none` is the error "Invalid parameter path". -/
def parsePath (s : JsString) : Option Segments :=
  let (segments, index) := parsePathFrom (2 * s.length + 1) s s [] false []
  if index = [] then some segments else none

/-! ## Lengths and fuel -/

theorem skipSpaces_length (i : JsString) : (skipSpaces i).length ≤ i.length :=
  (List.dropWhile_suffix _).length_le

theorem closeQuote_length {prev : Nat} {cs : JsString} {r : JsString × JsString}
    (h : closeQuote prev cs = some r) : r.2.length ≤ cs.length := by
  induction cs generalizing prev r with
  | nil => cases h
  | cons c cs ih =>
      rw [closeQuote] at h
      split_ifs at h
      · obtain rfl := Option.some.inj h
        exact Nat.le_succ _
      · obtain ⟨r', hr', rfl⟩ := Option.map_eq_some_iff.mp h
        exact (ih hr').trans (Nat.le_succ _)

theorem parseAliasValue_length {index : JsString} {r : JsString × JsString}
    (h : parseAliasValue index = some r) : r.2.length ≤ index.length := by
  have hbare : ∀ r : JsString × JsString,
      some (trim (index.takeWhile bareChar), index.dropWhile bareChar) = some r →
      r.2.length ≤ index.length := by
    rintro r ⟨⟩
    exact (List.dropWhile_suffix _).length_le
  unfold parseAliasValue at h
  split at h
  · rename_i c cs hskip
    split_ifs at h
    · obtain ⟨r', hclose, h⟩ := Option.bind_eq_some_iff.mp h
      obtain ⟨v, -, h⟩ := Option.bind_eq_some_iff.mp h
      obtain rfl := Option.some.inj h
      have hle := closeQuote_length hclose
      have hskip' := skipSpaces_length index
      rw [hskip, List.length_cons] at hskip'
      exact hle.trans ((Nat.le_succ _).trans hskip')
    · exact hbare r h
  · exact hbare r h

theorem parseAliasPath_congr {f g : JsString → Segments × JsString} {index : JsString}
    (h : f (skipSpaces index) = g (skipSpaces index)) :
    parseAliasPath f index = parseAliasPath g index := by
  rw [parseAliasPath, parseAliasPath, h]

theorem headD_tail_length {i : JsString} {c : Nat} (hc : c ≠ 0) (h : i.headD 0 = c) :
    i.tail.length + 1 = i.length := by
  cases i with
  | nil => exact absurd h hc.symm
  | cons _ _ => rfl

theorem parseAliasPath_length {f : JsString → Segments × JsString} {index : JsString}
    (hf : (f (skipSpaces index)).2.length ≤ (skipSpaces index).length)
    {r : Segments × JsString} (h : parseAliasPath f index = some r) :
    r.2.length < index.length := by
  unfold parseAliasPath at h
  simp only at h
  split_ifs at h with hsame hcolon
  obtain rfl := Option.some.inj h
  have htail := headD_tail_length (by decide) (not_not.mp hcolon)
  have hskip := skipSpaces_length (f (skipSpaces index)).2
  have hskip' := skipSpaces_length index
  show (skipSpaces (f (skipSpaces index)).2).tail.length < index.length
  omega

theorem parse_length (n : Nat) :
    (∀ index i seg wildcard segments, i.length ≤ index.length →
      (parsePathFrom n index i seg wildcard segments).2.length ≤ index.length)
    ∧ ∀ index i found, i.length ≤ index.length →
      (parseAliasFrom n index i found).2.length ≤ index.length := by
  induction n with
  | zero => exact ⟨fun _ _ _ _ _ _ => le_rfl, fun _ _ _ _ => le_rfl⟩
  | succ n ih =>
      obtain ⟨ihpath, ihalias⟩ := ih
      refine ⟨fun index i seg wildcard segments hle => ?_, fun index i found hle => ?_⟩
      · have htail : i.tail.length ≤ i.length := by
          rw [List.length_tail]
          omega
        rw [parsePathFrom]
        simp only
        split_ifs
        · exact le_rfl
        · exact Nat.zero_le _
        · have hidx := ihalias i.tail i.tail [] le_rfl
          refine (ihpath _ _ _ _ _ ?_).trans ?_
          · rw [List.length_tail]
            omega
          · rw [List.length_tail]
            omega
        · exact ihpath _ _ _ _ _ (htail.trans hle)
        · exact le_rfl
        · exact hle
        · exact (ihpath _ _ _ _ _ htail).trans hle
        · exact ihpath _ _ _ _ _ (htail.trans hle)
      · rw [parseAliasFrom]
        cases hpath : parseAliasPath (fun i => parsePathFrom n i i [] false []) i with
        | none => exact le_rfl
        | some r =>
            have hlt := parseAliasPath_length (ihpath _ _ _ _ _ le_rfl) hpath
            cases hvalue : parseAliasValue r.2 with
            | none =>
                simp only [hvalue]
                exact le_rfl
            | some r' =>
                have hle' := parseAliasValue_length hvalue
                simp only [hvalue]
                split_ifs
                · show r'.2.length ≤ index.length
                  omega
                · refine (ihalias _ _ _ ?_).trans ?_
                  · rw [List.length_tail]
                    omega
                  · omega

/-- More fuel than the text can use makes no difference. -/
theorem parse_fuel (n : Nat) :
    (∀ m index i seg wildcard segments, 2 * i.length + 1 ≤ n → 2 * i.length + 1 ≤ m →
      parsePathFrom n index i seg wildcard segments
        = parsePathFrom m index i seg wildcard segments)
    ∧ ∀ m index i found, 2 * i.length + 2 ≤ n → 2 * i.length + 2 ≤ m →
      parseAliasFrom n index i found = parseAliasFrom m index i found := by
  induction n with
  | zero => exact ⟨fun _ _ _ _ _ _ h => by omega, fun _ _ _ _ h => by omega⟩
  | succ n ih =>
      obtain ⟨ihpath, ihalias⟩ := ih
      refine ⟨fun m index i seg wildcard segments hn hm => ?_, fun m index i found hn hm => ?_⟩
      · obtain ⟨m, rfl⟩ : ∃ k, m = k + 1 := ⟨m - 1, by omega⟩
        rw [parsePathFrom, parsePathFrom]
        simp only
        cases i with
        | nil => simp [legalChar]
        | cons c cs =>
            rw [List.length_cons] at hn hm
            have hidx := (parse_length m).2 cs cs [] le_rfl
            have halias := ihalias m cs cs [] (by omega) (by omega)
            simp only [List.headD_cons, List.tail_cons, halias]
            rw [ihpath m index cs [c] true segments (by omega) (by omega),
              ihpath m (c :: cs) cs [] false _ (by omega) (by omega),
              ihpath m index cs (seg ++ [c]) false segments (by omega) (by omega),
              ihpath m _ (parseAliasFrom m cs cs []).2.tail.tail [] false _
                (by rw [List.length_tail, List.length_tail]; omega)
                (by rw [List.length_tail, List.length_tail]; omega)]
            rfl
      · obtain ⟨m, rfl⟩ : ∃ k, m = k + 1 := ⟨m - 1, by omega⟩
        have hskip := skipSpaces_length i
        have hpath := ihpath m (skipSpaces i) (skipSpaces i) [] false [] (by omega) (by omega)
        have hcongr : parseAliasPath (fun i => parsePathFrom n i i [] false []) i
            = parseAliasPath (fun i => parsePathFrom m i i [] false []) i :=
          parseAliasPath_congr hpath
        rw [parseAliasFrom, parseAliasFrom, hcongr]
        cases hr : parseAliasPath (fun i => parsePathFrom m i i [] false []) i with
        | none => rfl
        | some r =>
            have hlt := parseAliasPath_length ((parse_length m).1 _ _ _ _ _ le_rfl) hr
            cases hvalue : parseAliasValue r.2 with
            | none => simp only [hvalue]
            | some r' =>
                have hle := parseAliasValue_length hvalue
                simp only [hvalue]
                rw [ihalias m r'.2 r'.2.tail _ (by rw [List.length_tail]; omega)
                  (by rw [List.length_tail]; omega)]

/-! ## Scanning -/

/-- `parsePath` from within, with enough fuel. -/
def scanPath (index i seg : JsString) (wildcard : Bool) (segments : Segments) :
    Segments × JsString :=
  parsePathFrom (2 * i.length + 1) index i seg wildcard segments

/-- `parseAlias` from within, with enough fuel. -/
def scanAlias (index i : JsString) (found : Alias) : Alias × JsString :=
  parseAliasFrom (2 * i.length + 2) index i found

theorem parsePath_eq (s : JsString) : parsePath s
    = if (scanPath s s [] false []).2 = [] then some (scanPath s s [] false []).1 else none := rfl

section Scan

variable {index cs seg : JsString} {c : Nat} {wildcard : Bool} {segments : Segments}
  {found : Alias}

theorem scanPath_bracket : scanPath index ('['.toNat :: cs) [] wildcard segments
    = if (scanAlias cs cs []).2.headD 0 ≠ ']'.toNat then (segments, index)
      else if (scanAlias cs cs []).2.tail = [] then
        (segments ++ [.aliases (scanAlias cs cs []).1], [])
      else scanPath (scanAlias cs cs []).2.tail (scanAlias cs cs []).2.tail.tail [] false
        (segments ++ [.aliases (scanAlias cs cs []).1]) := by
  have halias : parseAliasFrom (2 * (cs.length + 1)) cs cs [] = scanAlias cs cs [] :=
    (parse_fuel _).2 _ _ _ _ (by omega) (by omega)
  have hle := (parse_length (2 * cs.length + 2)).2 cs cs [] le_rfl
  rw [scanPath, List.length_cons, parsePathFrom]
  simp only [List.headD_cons, List.tail_cons, halias]
  rw [if_pos ⟨trivial, trivial⟩]
  split_ifs
  · rfl
  · rfl
  · refine (parse_fuel _).1 _ _ _ _ _ _ ?_ le_rfl
    rw [List.length_tail, List.length_tail]
    unfold scanAlias
    omega

theorem scanPath_star :
    scanPath index ('*'.toNat :: cs) [] wildcard segments = scanPath index cs star true segments := by
  rw [scanPath, List.length_cons, parsePathFrom]
  simp only [List.headD_cons, List.tail_cons]
  rw [if_neg (by decide), if_pos ⟨trivial, trivial⟩]
  exact (parse_fuel _).1 _ _ _ _ _ _ (by omega) le_rfl

theorem scanPath_legal (hc : legalChar c = true) :
    scanPath index (c :: cs) seg false segments = scanPath index cs (seg ++ [c]) false segments := by
  have hne : c ≠ '['.toNat ∧ c ≠ '*'.toNat := by
    constructor
    · rintro rfl
      revert hc
      decide
    · rintro rfl
      revert hc
      decide
  have hlegal : ¬ (legalChar ((c :: cs).headD 0) = false ∨ false = true) := by
    simp [hc]
  rw [scanPath, List.length_cons, parsePathFrom]
  simp only
  rw [if_neg fun h => hne.1 h.1, if_neg fun h => hne.2 h.1, if_neg hlegal]
  exact (parse_fuel _).1 _ _ _ _ _ _ (by rw [List.tail_cons]; omega) le_rfl

/-- The end of a segment. -/
theorem scanPath_close (hseg : seg ≠ [])
    (h : legalChar (cs.headD 0) = false ∨ wildcard = true) :
    scanPath index cs seg wildcard segments
      = if cs.headD 0 ≠ '.'.toNat then (segments ++ [.name seg], cs)
        else scanPath cs cs.tail [] false (segments ++ [.name seg]) := by
  rw [scanPath, parsePathFrom]
  simp only
  rw [if_neg fun h => hseg h.2, if_neg fun h => hseg h.2, if_pos h, if_neg hseg]
  split_ifs with hdot
  · rfl
  · have htail := headD_tail_length (by decide) (not_not.mp hdot)
    exact (parse_fuel _).1 _ _ _ _ _ _ (by omega) le_rfl

/-- What cannot start a segment. -/
theorem scanPath_stop (h : legalChar (cs.headD 0) = false) (hbracket : cs.headD 0 ≠ '['.toNat)
    (hstar : cs.headD 0 ≠ '*'.toNat) :
    scanPath index cs [] wildcard segments = (segments, index) := by
  rw [scanPath, parsePathFrom]
  simp only
  rw [if_neg fun h => hbracket h.1, if_neg fun h => hstar h.1, if_pos (Or.inl h)]
  rfl

theorem scanAlias_eq : scanAlias index cs found
    = match parseAliasPath (fun i => scanPath i i [] false []) cs with
      | none => (sortAlias found, index)
      | some (path, i) =>
          match parseAliasValue i with
          | none => (sortAlias found, index)
          | some (value, i) =>
              if i.headD 0 ≠ ','.toNat then (sortAlias (found ++ [(path, value)]), i)
              else scanAlias i i.tail (found ++ [(path, value)]) := by
  have hskip := skipSpaces_length cs
  have hcongr : parseAliasPath (fun i => parsePathFrom (2 * cs.length + 1) i i [] false []) cs
      = parseAliasPath (fun i => scanPath i i [] false []) cs :=
    parseAliasPath_congr ((parse_fuel _).1 _ _ _ _ _ _ (by omega) le_rfl)
  rw [scanAlias, parseAliasFrom, hcongr]
  cases hr : parseAliasPath (fun i => scanPath i i [] false []) cs with
  | none => rfl
  | some r =>
      have hlt := parseAliasPath_length ((parse_length _).1 _ _ _ _ _ le_rfl) hr
      cases hvalue : parseAliasValue r.2 with
      | none => simp only [hvalue]
      | some r' =>
          have hle := parseAliasValue_length hvalue
          simp only [hvalue]
          rw [scanAlias, (parse_fuel _).2 (2 * r'.2.tail.length + 2) r'.2 r'.2.tail _
            (by rw [List.length_tail]; omega) le_rfl]

/-! ## Names -/

/-- What a segment without aliases can be. -/
def Fragment (s : JsString) : Prop := s = star ∨ (s ≠ [] ∧ ∀ c ∈ s, legalChar c = true)

theorem scanPath_chars {s rest : JsString} (hs : ∀ c ∈ s, legalChar c = true) :
    scanPath index (s ++ rest) seg false segments
      = scanPath index rest (seg ++ s) false segments := by
  induction s generalizing seg with
  | nil => rw [List.append_nil, List.nil_append]
  | cons c s ih =>
      rw [List.cons_append, scanPath_legal (hs c (List.mem_cons_self ..)),
        ih fun c' h => hs c' (List.mem_cons_of_mem _ h), List.append_assoc]
      rfl

theorem scanPath_name {s rest : JsString} (hs : Fragment s)
    (hrest : legalChar (rest.headD 0) = false) :
    scanPath index (s ++ rest) [] false segments
      = if rest.headD 0 ≠ '.'.toNat then (segments ++ [.name s], rest)
        else scanPath rest rest.tail [] false (segments ++ [.name s]) := by
  rcases hs with rfl | ⟨hne, hs⟩
  · have hstar : scanPath index (star ++ rest) [] false segments
        = scanPath index rest star true segments := scanPath_star
    rw [hstar, scanPath_close (by decide) (Or.inr rfl)]
  · rw [scanPath_chars hs, List.nil_append, scanPath_close hne (Or.inl hrest)]

end Scan

end GenieAcs
