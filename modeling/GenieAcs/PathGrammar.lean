import GenieAcs.PathParse

/-!
# The grammar of paths

Texts are read from the left: a phrase is read from one position up to another, where a
position is what is left of the text (`Derives`). The grammar proper and the language of the
parser differ in three rules (`Rules`): which character stands between an alias and the next
segment, where a path within an alias can end, and which quoted values are read.
-/

namespace GenieAcs

namespace PathGrammar

/-! ## Grammars -/

structure Rules where
  /-- The character may stand between the segment and the next one. -/
  sep : Segment → Nat → Prop
  /-- A path may end with the segment in front of the text. -/
  ends : Segment → JsString → Prop
  /-- The JSON text may stand for a value, with so many spaces behind it. -/
  json : JsString → Nat → Prop

/-- The text of a JSON string and its value. -/
def JsonText (raw value : JsString) : Prop :=
  ∃ body, raw = '"'.toNat :: body ∧ readString body = some (value, [])

def spaces (n : ℕ) : JsString := List.replicate n 32

/-- A value up to a position: a JSON string, or text that does not start with a quote. -/
inductive Value (r : Rules) : JsString → JsString → JsString → Prop
  | json {raw value : JsString} (m n : ℕ) (j : JsString) : JsonText raw value → r.json raw n →
      Value r value (spaces m ++ (raw ++ (spaces n ++ j))) j
  | bare {v : JsString} (j : JsString) : (∀ c ∈ v, bareChar c = true) →
      (skipSpaces v).headD 0 ≠ '"'.toNat → Value r (trim v) (v ++ j) j

inductive Phrase where
  | path (p : Segments)
  | segment (s : Segment)
  | pair (x : Segments × JsString)
  | pairs (l : Alias)

/-- What is read from a position up to another. -/
inductive Derives (r : Rules) : Phrase → JsString → JsString → Prop
  | name {u : JsString} (j : JsString) : Fragment u → Derives r (.segment (.name u)) (u ++ j) j
  | empty (j : JsString) :
      Derives r (.segment (.aliases [])) ('['.toNat :: ']'.toNat :: j) j
  | bracket {l : Alias} {i j : JsString} : Derives r (.pairs l) i (']'.toNat :: j) →
      Derives r (.segment (.aliases (sortAlias l))) ('['.toNat :: i) j
  | last {s : Segment} {i j : JsString} : Derives r (.segment s) i j → r.ends s j →
      Derives r (.path [s]) i j
  | cons {s : Segment} {p : Segments} {c : Nat} {i k j : JsString} :
      Derives r (.segment s) i (c :: k) → r.sep s c → Derives r (.path p) k j →
      Derives r (.path (s :: p)) i j
  | pair {p : Segments} {v i k j : JsString} (m n : ℕ) :
      Derives r (.path p) i (spaces n ++ ':'.toNat :: k) → Value r v k j →
      Derives r (.pair (p, v)) (spaces m ++ i) j
  | one {x : Segments × JsString} {i j : JsString} : Derives r (.pair x) i j →
      Derives r (.pairs [x]) i j
  | more {x : Segments × JsString} {l : Alias} {i k j : JsString} :
      Derives r (.pair x) i (','.toNat :: k) → Derives r (.pairs l) k j →
      Derives r (.pairs (x :: l)) i j

/-- The whole text is a path, which may be empty. -/
def Reads (r : Rules) (s : JsString) (p : Segments) : Prop :=
  (s = [] ∧ p = []) ∨ Derives r (.path p) s []

/-- The grammar of paths. -/
def grammar : Rules := ⟨fun _ c => c = '.'.toNat, fun _ _ => True, fun _ _ => True⟩

/-- A segment can be read from a position; the alias that a bracket opens must be closed. -/
def Starts (i : JsString) : Prop :=
  legalChar (i.headD 0) = true ∨ i.headD 0 = '*'.toNat ∨
    (i.headD 0 = '['.toNat ∧ (scanAlias i.tail i.tail []).2.headD 0 = ']'.toNat)

/-- After an alias the path goes on if a segment starts behind the next character. -/
def Ends : Segment → JsString → Prop
  | .name _, _ => True
  | .aliases _, j => j = [] ∨ ¬ Starts j.tail

/-- A quoted value that does not end in a backslash, and no spaces. -/
def PlainJson (raw : JsString) (n : ℕ) : Prop := ¬ js "\\\"" <:+ raw ∧ n = 0

/-- The grammar where a path does not end with an alias that the parser goes on behind. -/
def stopping : Rules := { grammar with ends := Ends }

/-- The grammar without the texts that the parser reads otherwise. -/
def common : Rules := { stopping with json := PlainJson }

/-- The language of the parser: behind an alias any character passes for a dot. -/
def language : Rules :=
  { common with
    sep := fun s c => match s with
      | .name _ => c = '.'.toNat
      | .aliases _ => True }

/-! ## Fewer rules -/

def Rules.LE (r r' : Rules) : Prop :=
  (∀ s c, r.sep s c → r'.sep s c) ∧ (∀ s j, r.ends s j → r'.ends s j) ∧
    ∀ raw n, r.json raw n → r'.json raw n

variable {r r' : Rules}

theorem Value.mono (h : ∀ raw n, r.json raw n → r'.json raw n) {v i j : JsString}
    (hv : Value r v i j) : Value r' v i j := by
  cases hv with
  | json m n j htext hjson => exact .json m n j htext (h _ _ hjson)
  | bare j hbare hquote => exact .bare j hbare hquote

theorem Derives.mono (h : r.LE r') {φ : Phrase} {i j : JsString} (hd : Derives r φ i j) :
    Derives r' φ i j := by
  induction hd with
  | name j hu => exact .name j hu
  | empty j => exact .empty j
  | bracket _ ih => exact .bracket ih
  | last _ hends ih => exact .last ih (h.2.1 _ _ hends)
  | cons _ hsep _ ih ihp => exact .cons ih (h.1 _ _ hsep) ihp
  | pair m n _ hv ih => exact .pair m n ih (hv.mono h.2.2)
  | one _ ih => exact .one ih
  | more _ _ ih ihl => exact .more ih ihl

theorem Reads.mono (h : r.LE r') {s : JsString} {p : Segments} (hp : Reads r s p) :
    Reads r' s p := hp.imp_right (Derives.mono h)

theorem stopping_le : stopping.LE grammar :=
  ⟨fun _ _ h => h, fun _ _ _ => trivial, fun _ _ h => h⟩

theorem common_le : common.LE stopping :=
  ⟨fun _ _ h => h, fun _ _ h => h, fun _ _ _ => trivial⟩

theorem language_ge : common.LE language := by
  refine ⟨fun s c h => ?_, fun _ _ h => h, fun _ _ h => h⟩
  cases s with
  | name u => exact h
  | aliases l => trivial

/-! ## Where phrases start -/

theorem fragment_ne {u : JsString} (h : Fragment u) : u ≠ [] := by
  rcases h with rfl | ⟨hne, -⟩
  · decide
  · exact hne

theorem Value.suffix {v i j : JsString} (h : Value r v i j) : j <:+ i := by
  cases h with
  | json m n j _ _ =>
      exact ((List.suffix_append _ _).trans (List.suffix_append _ _)).trans (List.suffix_append _ _)
  | bare j _ _ => exact List.suffix_append _ _

theorem Derives.length {φ : Phrase} {i j : JsString} (h : Derives r φ i j) :
    j.length < i.length := by
  induction h with
  | name j hu =>
      have hpos := List.length_pos_iff.mpr (fragment_ne hu)
      rw [List.length_append]
      omega
  | empty j =>
      rw [List.length_cons, List.length_cons]
      omega
  | bracket _ ih =>
      rw [List.length_cons] at ih ⊢
      omega
  | last _ _ ih => exact ih
  | cons _ _ _ ih ihp =>
      rw [List.length_cons] at ih
      omega
  | pair m n _ hv ih =>
      have hle := hv.suffix.length_le
      rw [List.length_append, List.length_cons] at ih
      rw [List.length_append]
      omega
  | one _ ih => exact ih
  | more _ _ ih ihl =>
      rw [List.length_cons] at ih
      omega

/-- A phrase is read up to a position further on in the text. -/
theorem Derives.suffix {φ : Phrase} {i j : JsString} (h : Derives r φ i j) : j <:+ i := by
  induction h with
  | name j _ => exact List.suffix_append _ _
  | empty j => exact List.suffix_append ['['.toNat, ']'.toNat] _
  | bracket _ ih => exact ((List.suffix_cons _ _).trans ih).trans (List.suffix_cons _ _)
  | last _ _ ih => exact ih
  | cons _ _ _ ih ihp => exact (ihp.trans (List.suffix_cons _ _)).trans ih
  | @pair p v i k j m n _ hv ih =>
      have hcolon : k <:+ spaces n ++ ':'.toNat :: k :=
        (List.suffix_cons _ _).trans (List.suffix_append _ _)
      exact ((hv.suffix.trans hcolon).trans ih).trans (List.suffix_append _ _)
  | one _ ih => exact ih
  | more _ _ ih ihl => exact (ihl.trans (List.suffix_cons _ _)).trans ih

/-- The first character of a phrase closes no bracket, and of a path it is no space. -/
def Phrase.Head : Phrase → Nat → Prop
  | .path _, c => c ≠ 32 ∧ c ≠ ']'.toNat
  | .segment _, c => c ≠ 32 ∧ c ≠ ']'.toNat
  | .pair _, c => c ≠ ']'.toNat
  | .pairs _, c => c ≠ ']'.toNat

theorem Derives.head {φ : Phrase} {i j : JsString} (h : Derives r φ i j) :
    ∃ c t, i = c :: t ∧ φ.Head c := by
  induction h with
  | name j hu =>
      obtain ⟨c, t, rfl, hspace, hclose⟩ := fragment_start hu
      exact ⟨c, t ++ j, rfl, hspace, hclose⟩
  | empty j => exact ⟨_, _, rfl, by decide, by decide⟩
  | bracket _ _ => exact ⟨_, _, rfl, by decide, by decide⟩
  | last _ _ ih => exact ih
  | cons _ _ _ ih _ => exact ih
  | pair m n _ _ ih =>
      obtain ⟨c, t, rfl, -, hclose⟩ := ih
      cases m with
      | zero => exact ⟨c, t, rfl, hclose⟩
      | succ m => exact ⟨32, spaces m ++ c :: t, rfl, show 32 ≠ ']'.toNat by decide⟩
  | one _ ih => exact ih
  | more _ _ ih _ => exact ih

/-! ## Values -/

theorem hexOf_ne_quote {c d : Nat} (h : hexOf c = some d) : c ≠ '"'.toNat := by
  rintro rfl
  cases h

/-- A string that is read ends at its first quote that no escape takes. -/
theorem readString_split {s : JsString} : ∀ {x rest : JsString}, readString s = some (x, rest) →
    ∃ u, s = u ++ '"'.toNat :: rest ∧ Passes u ∧
      ∀ t, readString (u ++ '"'.toNat :: t) = some (x, t) := by
  induction s using readString.induct with
  | case1 h1 h2 h3 h4 cs d1 d2 d3 d4 e4 e3 e2 e1 ih =>
      intro x rest h
      rw [readString, e1, e2, e3, e4] at h
      obtain ⟨⟨y, t⟩, hy, hr⟩ := Option.map_eq_some_iff.mp h
      obtain ⟨rfl, rfl⟩ := Prod.mk.inj hr
      obtain ⟨u, rfl, hpass, hread⟩ := ih hy
      refine ⟨[92, 117, h1, h2, h3, h4] ++ u, rfl, ?_, fun t => ?_⟩
      · refine (passes_chars ?_).append hpass
        simp only [List.forall_mem_cons]
        exact ⟨by decide, by decide, hexOf_ne_quote e1, hexOf_ne_quote e2, hexOf_ne_quote e3,
          hexOf_ne_quote e4, fun _ h => absurd h List.not_mem_nil⟩
      · show readString (92 :: 117 :: h1 :: h2 :: h3 :: h4 :: (u ++ '"'.toNat :: t)) = _
        rw [readString, e1, e2, e3, e4]
        simp only [hread t, Option.map_some]
  | case2 h1 h2 h3 h4 cs hnone =>
      intro x rest h
      rw [readString] at h
      split at h
      · exact (hnone _ _ _ _ ‹_› ‹_› ‹_› ‹_›).elim
      · cases h
  | case3 e cs hshape ih =>
      intro x rest h
      rw [readString] at h
      · obtain ⟨v, hv, h⟩ := Option.bind_eq_some_iff.mp h
        obtain ⟨⟨y, t⟩, hy, hr⟩ := Option.map_eq_some_iff.mp h
        obtain ⟨rfl, rfl⟩ := Prod.mk.inj hr
        obtain ⟨u, rfl, hpass, hread⟩ := ih hy
        have hne : e ≠ 117 := by
          rintro rfl
          cases hv
        refine ⟨[92, e] ++ u, rfl, ?_, fun t => ?_⟩
        · by_cases hquote : e = '"'.toNat
          · rw [hquote]
            exact passes_quote.append hpass
          · refine (passes_chars ?_).append hpass
            simp only [List.forall_mem_cons]
            exact ⟨by decide, hquote, fun _ h => absurd h List.not_mem_nil⟩
        · show readString (92 :: e :: (u ++ '"'.toNat :: t)) = _
          rw [readString]
          · rw [hv, Option.bind_some, hread t, Option.map_some]
          · exact fun _ _ _ _ _ h _ => hne h
      · exact hshape
  | case4 cs h1 h2 =>
      intro x rest h
      rw [readString, if_pos rfl] at h
      · obtain ⟨rfl, rfl⟩ := Prod.mk.inj (Option.some.inj h)
        refine ⟨[], rfl, fun prev t => by simp, fun t => ?_⟩
        show readString ('"'.toNat :: t) = _
        rw [readString, if_pos rfl]
        · exact fun _ _ _ _ _ h _ => absurd h (by decide)
        · exact fun _ _ h _ => absurd h (by decide)
      · exact h1
      · exact h2
  | case5 c cs h1 h2 hquote hlow =>
      intro x rest h
      rw [readString, if_neg hquote, if_pos hlow] at h
      · cases h
      · exact h1
      · exact h2
  | case6 c cs h1 h2 hquote hlow ih =>
      intro x rest h
      rw [readString, if_neg hquote, if_neg hlow] at h
      · obtain ⟨⟨y, t⟩, hy, hr⟩ := Option.map_eq_some_iff.mp h
        obtain ⟨rfl, rfl⟩ := Prod.mk.inj hr
        obtain ⟨u, rfl, hpass, hread⟩ := ih hy
        have hslash : c ≠ 92 := by
          intro hc
          cases u with
          | nil => exact h2 _ _ hc rfl
          | cons a u => exact h2 _ _ hc rfl
        refine ⟨[c] ++ u, rfl, (passes_char hquote).append hpass, fun t => ?_⟩
        show readString (c :: (u ++ '"'.toNat :: t)) = _
        rw [readString, if_neg hquote, if_neg hlow, hread t, Option.map_some]
        · exact fun _ _ _ _ _ hc _ => hslash hc
        · exact fun _ _ hc _ => hslash hc
      · exact h1
      · exact h2
  | case7 =>
      intro x rest h
      cases h

theorem skipSpaces_spaces (n : ℕ) (i : JsString) : skipSpaces (spaces n ++ i) = skipSpaces i := by
  induction n with
  | zero => rfl
  | succ n ih =>
      refine Eq.trans ?_ ih
      rw [spaces, List.replicate_succ, List.cons_append]
      exact List.dropWhile_cons_of_pos rfl

theorem exists_spaces (i : JsString) : ∃ n, i = spaces n ++ skipSpaces i := by
  have hall : i.takeWhile (· = 32) = spaces (i.takeWhile (· = 32)).length :=
    List.eq_replicate_of_mem fun c hc => by
      have hspace := List.mem_takeWhile_imp hc
      exact of_decide_eq_true hspace
  refine ⟨(i.takeWhile (· = 32)).length, ?_⟩
  rw [← hall]
  exact List.takeWhile_append_dropWhile.symm

theorem skipSpaces_head {i t : JsString} {c : Nat} (h : skipSpaces i = c :: t) : c ≠ 32 := by
  have hhead := List.head?_dropWhile_not (fun x => decide (x = 32)) i
  have hskip : i.dropWhile (fun x => decide (x = 32)) = c :: t := h
  rw [hskip] at hhead
  exact of_decide_eq_false hhead

/-- A quoted text ends in a backslash and its quote. -/
theorem escaped_iff (u : JsString) : js "\\\"" <:+ '"'.toNat :: (u ++ ['"'.toNat])
    ↔ u.getLastD '"'.toNat = '\\'.toNat := by
  rcases List.eq_nil_or_concat u with rfl | ⟨w, a, rfl⟩
  · decide
  · rw [List.concat_eq_append, List.getLastD_concat]
    have hend : [a, '"'.toNat] <:+ '"'.toNat :: (w ++ [a] ++ ['"'.toNat]) :=
      ⟨'"'.toNat :: w, by simp⟩
    constructor
    · intro h
      have heq := (List.suffix_of_suffix_length_le h hend (Nat.le_refl 2)).eq_of_length rfl
      exact (List.cons.inj heq).1.symm
    · rintro rfl
      exact hend

/-- The quote behind a text without one is found unless a backslash precedes it. -/
theorem closeQuote_passes {u : JsString} (hu : Passes u) (t : JsString) :
    closeQuote '"'.toNat (u ++ '"'.toNat :: t)
      = if js "\\\"" <:+ '"'.toNat :: (u ++ ['"'.toNat])
        then (closeQuote '"'.toNat t).map fun r => (u ++ '"'.toNat :: r.1, r.2)
        else some (u ++ ['"'.toNat], t) := by
  rw [hu, closeQuote]
  by_cases h : js "\\\"" <:+ '"'.toNat :: (u ++ ['"'.toNat])
  · rw [if_pos h, if_neg fun hq => hq.2 ((escaped_iff u).mp h), Option.map_map]
    rfl
  · rw [if_neg h, if_pos ⟨rfl, fun hq => h ((escaped_iff u).mpr hq)⟩]
    rfl

/-- The quote that is found has no backslash in front of it. -/
theorem closeQuote_spec {prev : Nat} {cs text j : JsString}
    (h : closeQuote prev cs = some (text, j)) :
    cs = text ++ j ∧ ∃ u, text = u ++ ['"'.toNat] ∧ u.getLastD prev ≠ '\\'.toNat := by
  induction cs generalizing prev text with
  | nil => cases h
  | cons c cs ih =>
      rw [closeQuote] at h
      split_ifs at h with hc
      · obtain ⟨rfl, rfl⟩ := Prod.mk.inj (Option.some.inj h)
        rw [hc.1]
        exact ⟨rfl, [], rfl, hc.2⟩
      · obtain ⟨⟨text', j'⟩, hr, heq⟩ := Option.map_eq_some_iff.mp h
        obtain ⟨rfl, rfl⟩ := Prod.mk.inj heq
        obtain ⟨rfl, u, rfl, hlast⟩ := ih hr
        refine ⟨rfl, c :: u, rfl, ?_⟩
        rw [List.getLastD_cons]
        exact hlast

theorem JsonText.split {raw v : JsString} (h : JsonText raw v) :
    ∃ u, raw = '"'.toNat :: (u ++ ['"'.toNat]) ∧ Passes u ∧
      ∀ t, parseJsonString ('"'.toNat :: (u ++ '"'.toNat :: t))
        = if t.all jsonSpace then some v else none := by
  obtain ⟨body, rfl, hread⟩ := h
  obtain ⟨u, rfl, hpass, hmore⟩ := readString_split hread
  refine ⟨u, rfl, hpass, fun t => ?_⟩
  rw [parseJsonString, List.tail_cons, hmore]

/-- What stands behind a value. -/
def Closes (j : JsString) : Prop := j.headD 0 = ','.toNat ∨ j.headD 0 = ']'.toNat

theorem parseAliasValue_quote {i cs : JsString} (h : skipSpaces i = '"'.toNat :: cs) :
    parseAliasValue i = (closeQuote '"'.toNat cs).bind fun q =>
      (parseJsonString ('"'.toNat :: q.1)).map fun v => (v, q.2) := by
  rw [parseAliasValue, h]
  simp only [if_true]
  cases closeQuote '"'.toNat cs with
  | none => rfl
  | some q =>
      show (parseJsonString ('"'.toNat :: q.1)).bind (fun v => some (v, q.2)) = Option.map _ _
      cases parseJsonString ('"'.toNat :: q.1) with
      | none => rfl
      | some v => rfl

theorem parseAliasValue_bare {i : JsString} (h : (skipSpaces i).headD 0 ≠ '"'.toNat) :
    parseAliasValue i = some (trim (i.takeWhile bareChar), i.dropWhile bareChar) := by
  rw [parseAliasValue]
  cases hskip : skipSpaces i with
  | nil => rfl
  | cons c cs =>
      rw [hskip] at h
      exact if_neg h

theorem closes_cons {j : JsString} (h : Closes j) :
    ∃ c t, j = c :: t ∧ c ≠ 32 ∧ c ≠ '"'.toNat ∧ bareChar c = false := by
  cases j with
  | nil => rcases h with h | h <;> cases h
  | cons c t =>
      rcases h with rfl | rfl
      · exact ⟨_, t, rfl, by decide, by decide, by decide⟩
      · exact ⟨_, t, rfl, by decide, by decide, by decide⟩

/-- Text that does not start with a quote, up to a comma or a bracket. -/
theorem parseAliasValue_text {u j : JsString} (hu : ∀ c ∈ u, bareChar c = true)
    (hquote : (skipSpaces u).headD 0 ≠ '"'.toNat) (hj : Closes j) :
    parseAliasValue (u ++ j) = some (trim u, j) := by
  obtain ⟨c, t, rfl, hspace, hclose, hbare⟩ := closes_cons hj
  obtain ⟨n, hn⟩ := exists_spaces u
  have hhead : (skipSpaces (u ++ c :: t)).headD 0 ≠ '"'.toNat := by
    rw [hn, List.append_assoc, skipSpaces_spaces]
    cases hskip : skipSpaces u with
    | nil =>
        rw [List.nil_append, skipSpaces_of_ne hspace]
        exact hclose
    | cons a w =>
        rw [hskip] at hquote
        rw [List.cons_append, skipSpaces_of_ne (skipSpaces_head hskip)]
        exact hquote
  have htake : (u ++ c :: t).takeWhile bareChar = u := by
    rw [List.takeWhile_append_of_pos hu, List.takeWhile_cons_of_neg (by simp [hbare]),
      List.append_nil]
  have hdrop : (u ++ c :: t).dropWhile bareChar = c :: t := by
    rw [List.dropWhile_append_of_pos hu, List.dropWhile_cons_of_neg (by simp [hbare])]
  rw [parseAliasValue_bare hhead, htake, hdrop]

/-- A value of the parser's language is read. -/
theorem parseAliasValue_of_value {v i j : JsString} (h : Value common v i j) (hj : Closes j) :
    parseAliasValue i = some (v, j) := by
  cases h with
  | json m n j htext hjson =>
      obtain ⟨hslash, rfl⟩ := hjson
      obtain ⟨u, rfl, hpass, hparse⟩ := htext.split
      have hskip : skipSpaces (spaces m ++ ('"'.toNat :: (u ++ ['"'.toNat]) ++ (spaces 0 ++ j)))
          = '"'.toNat :: (u ++ '"'.toNat :: j) := by
        rw [skipSpaces_spaces, List.cons_append, List.append_assoc, skipSpaces_of_ne (by decide)]
        rfl
      rw [parseAliasValue_quote hskip, closeQuote_passes hpass, if_neg hslash, Option.bind_some,
        hparse []]
      rfl
  | bare j hbare hquote => exact parseAliasValue_text hbare hquote hj

/-- A value that the parser reads otherwise: nothing is read, or a space follows what is. -/
theorem parseAliasValue_stuck {v i j : JsString} (h : Value stopping v i j) :
    Value common v i j ∨ parseAliasValue i = none ∨
      ∃ y t, parseAliasValue i = some (y, t) ∧ t.headD 0 = 32 := by
  cases h with
  | @json raw v m n j htext hjson =>
      by_cases hplain : PlainJson raw n
      · exact Or.inl (.json m n j htext hplain)
      obtain ⟨u, rfl, hpass, hparse⟩ := htext.split
      have hskip : skipSpaces (spaces m ++ ('"'.toNat :: (u ++ ['"'.toNat]) ++ (spaces n ++ j)))
          = '"'.toNat :: (u ++ '"'.toNat :: (spaces n ++ j)) := by
        rw [skipSpaces_spaces, List.cons_append, List.append_assoc, skipSpaces_of_ne (by decide)]
        rfl
      rw [parseAliasValue_quote hskip, closeQuote_passes hpass]
      split_ifs with hslash
      · refine Or.inr (Or.inl ?_)
        cases hclose : closeQuote '"'.toNat (spaces n ++ j) with
        | none => rfl
        | some q =>
            rw [Option.map_some, Option.bind_some, hparse, if_neg]
            · rfl
            · intro hall
              exact absurd (List.all_eq_true.mp hall _ (closeQuote_mem hclose)) (by decide)
      · rw [Option.bind_some, hparse []]
        cases n with
        | zero => exact absurd ⟨hslash, rfl⟩ hplain
        | succ n => exact Or.inr (Or.inr ⟨_, _, rfl, rfl⟩)
  | bare j hbare hquote => exact Or.inl (.bare j hbare hquote)

/-- What is read as a JSON string ends with its text. -/
theorem jsonText_of_parse {u v : JsString}
    (h : parseJsonString ('"'.toNat :: (u ++ ['"'.toNat])) = some v) :
    JsonText ('"'.toNat :: (u ++ ['"'.toNat])) v := by
  rw [parseJsonString, List.tail_cons] at h
  cases hread : readString (u ++ ['"'.toNat]) with
  | none =>
      rw [hread] at h
      cases h
  | some r =>
      obtain ⟨x, rest⟩ := r
      rw [hread] at h
      obtain ⟨hspaces, rfl⟩ : rest.all jsonSpace = true ∧ x = v := by
        simpa using h
      obtain ⟨w, hsplit, -, -⟩ := readString_split hread
      have hrest : rest = [] := by
        rcases List.eq_nil_or_concat rest with hnil | ⟨t, a, rfl⟩
        · exact hnil
        · rw [List.concat_eq_append, ← List.cons_append, ← List.append_assoc] at hsplit
          obtain rfl : '"'.toNat = a := (List.append_singleton_inj.mp hsplit).2
          have hmem : '"'.toNat ∈ t.concat '"'.toNat := by simp
          exact absurd (List.all_eq_true.mp hspaces _ hmem) (by decide)
      rw [hrest] at hread
      exact ⟨_, rfl, hread⟩

/-- What the parser reads is a value of its language. -/
theorem value_of_parseAliasValue {v i j : JsString} (h : parseAliasValue i = some (v, j)) :
    Value common v i j := by
  obtain ⟨m, hi⟩ := exists_spaces i
  by_cases hquote : (skipSpaces i).headD 0 = '"'.toNat
  · cases hskip : skipSpaces i with
    | nil =>
        rw [hskip] at hquote
        cases hquote
    | cons c cs =>
        rw [hskip] at hquote
        obtain rfl : c = '"'.toNat := hquote
        rw [parseAliasValue_quote hskip] at h
        obtain ⟨⟨text, j'⟩, hclose, hr⟩ := Option.bind_eq_some_iff.mp h
        obtain ⟨v', hparse, heq⟩ := Option.map_eq_some_iff.mp hr
        obtain ⟨rfl, rfl⟩ := Prod.mk.inj heq
        obtain ⟨rfl, u, rfl, hlast⟩ := closeQuote_spec hclose
        have hplain : PlainJson ('"'.toNat :: (u ++ ['"'.toNat])) 0 :=
          ⟨fun hend => hlast ((escaped_iff u).mp hend), rfl⟩
        rw [hi, hskip]
        exact .json m 0 j' (jsonText_of_parse hparse) hplain
  · rw [parseAliasValue_bare hquote] at h
    obtain ⟨rfl, rfl⟩ := Prod.mk.inj (Option.some.inj h)
    have hsplit := List.takeWhile_append_dropWhile (p := bareChar) (l := i)
    have hhead : (skipSpaces (i.takeWhile bareChar)).headD 0 ≠ '"'.toNat := by
      intro hhead
      refine hquote ?_
      obtain ⟨n, hn⟩ := exists_spaces (i.takeWhile bareChar)
      cases hskip : skipSpaces (i.takeWhile bareChar) with
      | nil =>
          rw [hskip] at hhead
          cases hhead
      | cons c cs =>
          rw [hskip] at hhead hn
          rw [← hsplit, hn, List.append_assoc, skipSpaces_spaces, List.cons_append,
            skipSpaces_of_ne (skipSpaces_head hskip)]
          exact hhead
    have hvalue := Value.bare (r := common) (i.dropWhile bareChar)
      (fun c hc => List.mem_takeWhile_imp hc) hhead
    rw [hsplit] at hvalue
    exact hvalue

end PathGrammar

end GenieAcs
