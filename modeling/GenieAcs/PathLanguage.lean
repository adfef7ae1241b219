import GenieAcs.PathGrammar

/-!
# The language of the path parser

What the parser returns is what its language reads (`parsePath_iff`). So it accepts the
grammar of paths where the two do not differ (`parsePath_grammar_iff`).
-/

namespace GenieAcs

namespace PathGrammar

/-! ## The parser on a text of its language -/

/-- What stands behind a path: nothing, or the rest of a pair. -/
def Stops (j : JsString) : Prop := j = [] ∨ j.headD 0 = 32 ∨ j.headD 0 = ':'.toNat

theorem Stops.illegal {j : JsString} (h : Stops j) :
    legalChar (j.headD 0) = false ∧ j.headD 0 ≠ '.'.toNat := by
  rcases h with rfl | h | h
  · exact ⟨rfl, by decide⟩
  · rw [h]
    exact ⟨rfl, by decide⟩
  · rw [h]
    exact ⟨rfl, by decide⟩

theorem stops_spaces (n : ℕ) (k : JsString) : Stops (spaces n ++ ':'.toNat :: k) := by
  cases n with
  | zero => exact Or.inr (Or.inr rfl)
  | succ n => exact Or.inr (Or.inl rfl)

/-- The loop behind a segment that ended in front of `j`. -/
def resume : Segment → JsString → Segments → Segments × JsString
  | .name _, j, segments =>
      if j.headD 0 ≠ '.'.toNat then (segments, j) else scanPath j j.tail [] false segments
  | .aliases _, j, segments =>
      if j = [] then (segments, []) else scanPath j j.tail [] false segments

/-- What can stand behind a phrase. -/
def Phrase.Behind : Phrase → JsString → Prop
  | .segment s, j => ∀ u, s = .name u → legalChar (j.headD 0) = false
  | .path _, j => Stops j
  | .pair _, j => Closes j
  | .pairs _, j => j.headD 0 = ']'.toNat

/-- What the parser does with a phrase of its language. -/
def Phrase.Scanned : Phrase → JsString → JsString → Prop
  | .segment s, i, j =>
      ∀ index segments, scanPath index i [] false segments = resume s j (segments ++ [s])
  | .path p, i, j => ∀ index segments, scanPath index i [] false segments = (segments ++ p, j)
  | .pair x, i, j => ∃ k, parseAliasPath (fun i => scanPath i i [] false []) i = some (x.1, k) ∧
      parseAliasValue k = some (x.2, j)
  | .pairs l, i, j => ∀ index found, scanAlias index i found = (sortAlias (found ++ l), j)

variable {s : Segment} {p : Segments} {l : Alias} {index i j k : JsString} {segments : Segments}
  {found : Alias} {x : Segments × JsString}

theorem headD_cons_eq (c : Nat) (t : JsString) : ¬ (c :: t).headD 0 ≠ c := not_not.mpr rfl

theorem Stops.behind (h : Stops j) : (Phrase.segment s).Behind j := fun _ _ => h.illegal.1

theorem behind_sep {c : Nat} (hsep : language.sep s c) : (Phrase.segment s).Behind (c :: k) := by
  rintro u rfl
  obtain rfl : c = '.'.toNat := hsep
  rfl

/-- Where no segment can be read the loop ends. -/
theorem scanPath_of_not_starts (h : ¬ Starts i) :
    scanPath index i [] false segments = (segments, index) := by
  rw [Starts, not_or, not_or] at h
  obtain ⟨hlegal, hstar, hbracket⟩ := h
  by_cases hopen : i.headD 0 = '['.toNat
  · cases i with
    | nil => cases hopen
    | cons c cs =>
        obtain rfl : c = '['.toNat := hopen
        have hclose : (scanAlias cs cs []).2.headD 0 ≠ ']'.toNat := fun h => hbracket ⟨rfl, h⟩
        rw [scanPath_bracket, if_pos hclose]
  · exact scanPath_stop (Bool.eq_false_of_not_eq_true hlegal) hopen hstar

theorem resume_last (hends : Ends s j) (hj : Stops j) : resume s j segments = (segments, j) := by
  cases s with
  | name u => exact if_pos hj.illegal.2
  | aliases l =>
      rw [resume]
      split_ifs with hnil
      · rw [hnil]
      · exact scanPath_of_not_starts (hends.resolve_left hnil)

theorem resume_cons {c : Nat} (hsep : language.sep s c) :
    resume s (c :: k) segments = scanPath (c :: k) k [] false segments := by
  cases s with
  | name u =>
      obtain rfl : c = '.'.toNat := hsep
      rw [resume]
      exact if_neg (headD_cons_eq _ _)
  | aliases l =>
      rw [resume]
      exact if_neg (List.cons_ne_nil _ _)

theorem scanAlias_close :
    scanAlias index (']'.toNat :: j) found = (sortAlias found, index) := by
  rw [scanAlias_eq, parseAliasPath_close]

theorem scanned_bracket (h : scanAlias i i [] = (sortAlias l, ']'.toNat :: j)) :
    (Phrase.segment (.aliases (sortAlias l))).Scanned ('['.toNat :: i) j := by
  intro index segments
  rw [scanPath_bracket, h]
  exact if_neg (headD_cons_eq _ _)

theorem parseAliasPath_of_scan (m n : ℕ) (hhead : ∃ c t, i = c :: t ∧ c ≠ 32)
    (hlen : (spaces n ++ ':'.toNat :: k).length < i.length)
    (hscan : scanPath i i [] false [] = (p, spaces n ++ ':'.toNat :: k)) :
    parseAliasPath (fun i => scanPath i i [] false []) (spaces m ++ i) = some (p, k) := by
  obtain ⟨c, t, rfl, hc⟩ := hhead
  have hcolon : skipSpaces (spaces n ++ ':'.toNat :: k) = ':'.toNat :: k := by
    rw [skipSpaces_spaces, skipSpaces_of_ne (by decide)]
  rw [parseAliasPath, skipSpaces_spaces, skipSpaces_of_ne hc, hscan]
  dsimp only
  rw [if_neg hlen.ne, hcolon]
  exact if_neg (headD_cons_eq _ _)

/-- A pair in front of a bracket or a comma. -/
theorem scanAlias_pair (h : (Phrase.pair x).Scanned i j) : scanAlias index i found
    = if j.headD 0 ≠ ','.toNat then (sortAlias (found ++ [x]), j)
      else scanAlias j j.tail (found ++ [x]) := by
  obtain ⟨k, hpath, hvalue⟩ := h
  rw [scanAlias_eq, hpath]
  dsimp only
  rw [hvalue]

/-- The parser reads the phrases of its language, by induction on the phrase. -/
theorem Derives.scanned {φ : Phrase} (h : Derives language φ i j) (hj : φ.Behind j) :
    φ.Scanned i j := by
  induction h with
  | name j hu => exact fun index segments => scanPath_name hu (hj _ rfl)
  | empty j => exact scanned_bracket scanAlias_close
  | @bracket l i j _ ih =>
      have hpairs := ih rfl i []
      rw [List.nil_append] at hpairs
      exact scanned_bracket hpairs
  | last _ hends ih =>
      intro index segments
      rw [ih (Stops.behind hj) index segments, resume_last hends hj]
  | cons _ hsep _ ih ihp =>
      intro index segments
      rw [ih (behind_sep hsep) index segments, resume_cons hsep, ihp hj, List.append_assoc]
      rfl
  | @pair p v i k j m n hp hv ih =>
      obtain ⟨c, t, hi, hhead⟩ := hp.head
      have hscan := ih (stops_spaces n k) i []
      have hjson : ∀ raw n, language.json raw n → common.json raw n := fun _ _ h => h
      exact ⟨k, parseAliasPath_of_scan m n ⟨c, t, hi, hhead.1⟩ hp.length hscan,
        parseAliasValue_of_value (hv.mono hjson) hj⟩
  | @one x i j _ ih =>
      intro index found
      have hend : j.headD 0 ≠ ','.toNat := by
        rw [show j.headD 0 = ']'.toNat from hj]
        decide
      rw [scanAlias_pair (ih (Or.inr hj)), if_pos hend]
  | @more x l i k j _ _ ih ihl =>
      intro index found
      rw [scanAlias_pair (ih (Or.inl rfl)), if_neg (headD_cons_eq _ _)]
      have hrest := ihl hj (','.toNat :: k) (found ++ [x])
      rw [List.append_assoc] at hrest
      exact hrest

/-! ## Texts of the grammar that the parser does not read -/

/-- The parser gives up within the phrase. -/
def Phrase.Stuck : Phrase → JsString → Prop
  | .segment _, i => ∀ index segments, scanPath index i [] false segments = (segments, index)
  | .path _, i => ∀ index segments, (scanPath index i [] false segments).2 = index ∨
      (scanPath index i [] false segments).2.headD 0 = '.'.toNat
  | .pair _, i => parseAliasPath (fun i => scanPath i i [] false []) i = none ∨
      ∃ q k, parseAliasPath (fun i => scanPath i i [] false []) i = some (q, k) ∧
        (parseAliasValue k = none ∨ ∃ y t, parseAliasValue k = some (y, t) ∧ t.headD 0 = 32)
  | .pairs _, i => ∀ index found, index.headD 0 ≠ ']'.toNat →
      (scanAlias index i found).2.headD 0 ≠ ']'.toNat

/-- A path that is left where it starts, or at a dot, is none. -/
theorem parseAliasPath_stuck (m : ℕ) (hhead : ∃ c t, i = c :: t ∧ c ≠ 32)
    (h : (Phrase.path p).Stuck i) :
    parseAliasPath (fun i => scanPath i i [] false []) (spaces m ++ i) = none := by
  obtain ⟨c, t, rfl, hc⟩ := hhead
  rw [parseAliasPath, skipSpaces_spaces, skipSpaces_of_ne hc]
  rcases h (c :: t) [] with hstart | hdot
  · exact if_pos (congrArg List.length hstart)
  · generalize scanPath (c :: t) (c :: t) [] false [] = r at hdot
    obtain ⟨q, idx⟩ := r
    have hcolon : (skipSpaces idx).headD 0 ≠ ':'.toNat := by
      cases idx with
      | nil => decide
      | cons d ds =>
          obtain rfl : d = '.'.toNat := hdot
          rw [skipSpaces_of_ne (by decide)]
          exact show '.'.toNat ≠ ':'.toNat by decide
    simp only [if_pos hcolon]
    exact ite_self _

/-- Behind a pair that is not read no bracket closes the alias. -/
theorem scanAlias_stuck (h : (Phrase.pair x).Stuck i) (hindex : index.headD 0 ≠ ']'.toNat) :
    (scanAlias index i found).2.headD 0 ≠ ']'.toNat := by
  rw [scanAlias_eq]
  rcases h with hnone | ⟨q, k, hpath, hvalue⟩
  · rw [hnone]
    exact hindex
  · rw [hpath]
    dsimp only
    rcases hvalue with hnone | ⟨y, t, hvalue, hspace⟩
    · rw [hnone]
      exact hindex
    · rw [hvalue]
      dsimp only
      rw [hspace, if_pos (by decide)]
      exact show t.headD 0 ≠ ']'.toNat by rw [hspace]; decide

/-- A phrase of the grammar is one of the parser's language too, or the parser gives it up. -/
theorem Derives.common_or_stuck {φ : Phrase} (h : Derives stopping φ i j) (hj : φ.Behind j) :
    Derives common φ i j ∨ φ.Stuck i := by
  induction h with
  | name j hu => exact Or.inl (.name j hu)
  | empty j => exact Or.inl (.empty j)
  | @bracket l i j hpairs ih =>
      rcases ih rfl with h | h
      · exact Or.inl (.bracket h)
      · obtain ⟨c, t, hi, hc⟩ := hpairs.head
        have hindex : i.headD 0 ≠ ']'.toNat := by
          rw [hi]
          exact hc
        refine Or.inr fun index segments => ?_
        rw [scanPath_bracket, if_pos (h i [] hindex)]
  | last _ hends ih =>
      rcases ih (Stops.behind hj) with h | h
      · exact Or.inl (.last h hends)
      · exact Or.inr fun index segments => Or.inl (congrArg Prod.snd (h index segments))
  | @cons s p c i k j _ hsep _ ih ihp =>
      have hlanguage : language.sep s c := language_ge.1 s c hsep
      rcases ih (behind_sep hlanguage) with h | h
      · rcases ihp hj with hp | hp
        · exact Or.inl (.cons h hsep hp)
        · refine Or.inr fun index segments => Or.inr ?_
          have hscan := (h.mono language_ge).scanned (behind_sep hlanguage) index segments
          rw [hscan, resume_cons hlanguage]
          -- the rest is left at the dot or at one further on
          rcases hp (c :: k) (segments ++ [s]) with hstart | hdot
          · rw [hstart]
            exact hsep
          · exact hdot
      · exact Or.inr fun index segments => Or.inl (congrArg Prod.snd (h index segments))
  | @pair p v i k j m n hp hv ih =>
      obtain ⟨c, t, hi, hhead⟩ := hp.head
      have hstart : ∃ c t, i = c :: t ∧ c ≠ 32 := ⟨c, t, hi, hhead.1⟩
      rcases ih (stops_spaces n k) with h | h
      · have hscan := (h.mono language_ge).scanned (stops_spaces n k) i []
        have hpath := parseAliasPath_of_scan m n hstart hp.length hscan
        rcases parseAliasValue_stuck hv with hvalue | hvalue
        · exact Or.inl (.pair m n h hvalue)
        · exact Or.inr (Or.inr ⟨_, _, hpath, hvalue⟩)
      · exact Or.inr (Or.inl (parseAliasPath_stuck m hstart h))
  | one _ ih =>
      rcases ih (Or.inr hj) with h | h
      · exact Or.inl (.one h)
      · exact Or.inr fun index found hindex => scanAlias_stuck h hindex
  | more _ _ ih ihl =>
      rcases ih (Or.inl rfl) with h | h
      · rcases ihl hj with hl | hl
        · exact Or.inl (.more h hl)
        · refine Or.inr fun index found _ => ?_
          have hscan := (h.mono language_ge).scanned (Or.inl rfl)
          rw [scanAlias_pair hscan, if_neg (headD_cons_eq _ _)]
          exact hl _ _ (show ','.toNat ≠ ']'.toNat by decide)
      · exact Or.inr fun index found hindex => scanAlias_stuck h hindex

/-! ## What the parser reads -/

/-- What was read stays read. -/
theorem scanPath_past (s : Segment) :
    ∃ more, (scanPath index i [] false (segments ++ [s])).1 = segments ++ more ∧ more ≠ [] := by
  obtain ⟨more, hmore, -, -⟩ := (parse_sound (2 * i.length + 1)).1 index i [] false
    (segments ++ [s]) (fun _ h => nomatch h)
  refine ⟨s :: more, hmore.trans ?_, List.cons_ne_nil _ _⟩
  rw [List.append_assoc]
  rfl

/-- A segment that is being read is added. -/
theorem scanPath_adds {i seg : JsString} {wildcard : Bool} (hseg : seg ≠ [])
    (hread : Reading seg wildcard) :
    ∃ more, (scanPath index i seg wildcard segments).1 = segments ++ more ∧ more ≠ [] := by
  induction i generalizing seg with
  | nil =>
      have hend : scanPath index [] seg wildcard segments = (segments ++ [.name seg], []) :=
        scanPath_close hseg (Or.inl rfl)
      rw [hend]
      exact ⟨_, rfl, List.cons_ne_nil _ _⟩
  | cons c cs ih =>
      by_cases hclose : legalChar ((c :: cs).headD 0) = false ∨ wildcard = true
      · rw [scanPath_close hseg hclose]
        split_ifs with hdot
        · exact ⟨_, rfl, List.cons_ne_nil _ _⟩
        · exact scanPath_past _
      · rw [not_or, Bool.not_eq_false, Bool.not_eq_true] at hclose
        obtain ⟨hlegal, rfl⟩ := hclose
        have hc : legalChar c = true := hlegal
        rw [scanPath_legal hc]
        refine ih (by simp) fun d hd => ?_
        rcases List.mem_append.mp hd with hd | hd
        · exact hread d hd
        · rw [List.mem_singleton.mp hd]
          exact hc

/-- Where a segment starts one is added. -/
theorem scanPath_starts (h : Starts i) :
    ∃ more, (scanPath index i [] false segments).1 = segments ++ more ∧ more ≠ [] := by
  cases i with
  | nil => rcases h with h | h | ⟨h, -⟩ <;> cases h
  | cons c cs =>
      rcases h with hlegal | hstar | ⟨hopen, hclose⟩
      · have hc : legalChar c = true := hlegal
        rw [scanPath_legal hc]
        exact scanPath_adds (List.cons_ne_nil _ _) fun d hd => List.mem_singleton.mp hd ▸ hc
      · obtain rfl : c = '*'.toNat := hstar
        rw [scanPath_star]
        exact scanPath_adds (List.cons_ne_nil _ _) rfl
      · obtain rfl : c = '['.toNat := hopen
        have hbracket : ¬ (scanAlias cs cs []).2.headD 0 ≠ ']'.toNat := not_not.mpr hclose
        rw [scanPath_bracket, if_neg hbracket]
        split_ifs with hnil
        · exact ⟨_, rfl, List.cons_ne_nil _ _⟩
        · exact scanPath_past _

/-- The loop read a path, or nothing. -/
def PathRead (segments : Segments) (index i : JsString) (r : Segments × JsString) : Prop :=
  r = (segments, index) ∨ ∃ p, r.1 = segments ++ p ∧ Derives language (.path p) i r.2

/-- The loop read pairs, or nothing. -/
def PairsRead (found : Alias) (index i : JsString) (r : Alias × JsString) : Prop :=
  r = (sortAlias found, index) ∨
    ∃ l, r.1 = sortAlias (found ++ l) ∧ Derives language (.pairs l) i r.2

/-- A name in front of the loop. -/
theorem PathRead.name {u : JsString} (hu : Fragment u) {r : Segments × JsString}
    (hdot : j.headD 0 = '.'.toNat) (hr : Stops r.2)
    (h : PathRead (segments ++ [.name u]) j j.tail r) : PathRead segments index (u ++ j) r := by
  rcases h with rfl | ⟨p, hp, hrest⟩
  · exact absurd hdot hr.illegal.2
  · cases j with
    | nil => cases hdot
    | cons c k =>
        obtain rfl : c = '.'.toNat := hdot
        refine Or.inr ⟨.name u :: p, ?_, .cons (.name _ hu) rfl hrest⟩
        rw [hp, List.append_assoc]
        rfl

/-- An alias in front of the loop, which goes on behind the next character. -/
theorem PathRead.aliases (ha : Derives language (.segment (.aliases l)) i j) (hne : j ≠ [])
    {r : Segments × JsString} (hscan : scanPath j j.tail [] false (segments ++ [.aliases l]) = r)
    (h : PathRead (segments ++ [.aliases l]) j j.tail r) : PathRead segments index i r := by
  rcases h with rfl | ⟨p, hp, hrest⟩
  · refine Or.inr ⟨[.aliases l], rfl, .last ha (Or.inr fun hstarts => ?_)⟩
    have hadds : ∃ more, (scanPath j j.tail [] false (segments ++ [.aliases l])).1
        = segments ++ [.aliases l] ++ more ∧ more ≠ [] := scanPath_starts hstarts
    rw [hscan] at hadds
    obtain ⟨more, hmore, hne⟩ := hadds
    exact hne (List.self_eq_append_right.mp hmore)
  · cases j with
    | nil => exact absurd rfl hne
    | cons c k =>
        refine Or.inr ⟨.aliases l :: p, ?_, .cons ha trivial hrest⟩
        rw [hp, List.append_assoc]
        rfl

/-- The pairs of an alias whose bracket is closed. -/
theorem PairsRead.alias {r : Alias × JsString} (h : PairsRead [] i i r)
    (hclose : r.2.headD 0 = ']'.toNat) :
    Derives language (.segment (.aliases r.1)) ('['.toNat :: i) r.2.tail := by
  obtain ⟨found, idx⟩ := r
  cases idx with
  | nil => cases hclose
  | cons c j =>
      obtain rfl : c = ']'.toNat := hclose
      rcases h with heq | ⟨l, hl, hrest⟩
      · obtain ⟨rfl, rfl⟩ := Prod.mk.inj heq
        exact .empty j
      · obtain rfl : found = sortAlias l := hl
        exact .bracket hrest

/-- A pair in front of a comma. -/
theorem PairsRead.more (hpair : Derives language (.pair x) i j) {r : Alias × JsString}
    (hcomma : j.headD 0 = ','.toNat) (hclose : r.2.headD 0 = ']'.toNat)
    (h : PairsRead (found ++ [x]) j j.tail r) : PairsRead found index i r := by
  rcases h with rfl | ⟨l, hl, hrest⟩
  · exact absurd (hcomma.symm.trans hclose) (by decide)
  · cases j with
    | nil => cases hcomma
    | cons c k =>
        obtain rfl : c = ','.toNat := hcomma
        refine Or.inr ⟨x :: l, ?_, .more hpair hrest⟩
        rw [hl, List.append_assoc]
        rfl

/-- From the position the loop of `parsePath` reads what the language has. -/
def ReadsPaths (i : JsString) : Prop := ∀ index seg wildcard segments, Reading seg wildcard →
  Stops (scanPath index i seg wildcard segments).2 →
    PathRead segments index (seg ++ i) (scanPath index i seg wildcard segments)

/-- From the position the loop of `parseAlias` reads what the language has. -/
def ReadsPairs (i : JsString) : Prop := ∀ index found,
  (scanAlias index i found).2.headD 0 = ']'.toNat →
    PairsRead found index i (scanAlias index i found)

theorem readsPaths_start {c : Nat} {cs : JsString} (hstart : Starts (c :: cs))
    (hpaths : ∀ k : JsString, k.length ≤ cs.length → ReadsPaths k) (hpairs : ReadsPairs cs)
    (hstops : Stops (scanPath index (c :: cs) [] false segments).2) :
    PathRead segments index (c :: cs) (scanPath index (c :: cs) [] false segments) := by
  rcases hstart with hlegal | hstar | ⟨hopen, hclose⟩
  · have hc : legalChar c = true := hlegal
    rw [scanPath_legal hc] at hstops ⊢
    exact hpaths cs le_rfl index [c] false segments
      (fun d hd => List.mem_singleton.mp hd ▸ hc) hstops
  · obtain rfl : c = '*'.toNat := hstar
    rw [scanPath_star] at hstops ⊢
    exact hpaths cs le_rfl index star true segments rfl hstops
  · obtain rfl : c = '['.toNat := hopen
    have hend : (scanAlias cs cs []).2.headD 0 = ']'.toNat := hclose
    have halias := (hpairs cs [] hend).alias hend
    rw [scanPath_bracket, if_neg (not_not.mpr hend)] at hstops ⊢
    split_ifs at hstops ⊢ with hnil
    · rw [hnil] at halias
      exact Or.inr ⟨_, rfl, .last halias (Or.inl rfl)⟩
    · have hle : (scanAlias cs cs []).2.length ≤ cs.length := (parse_length _).2 cs cs [] le_rfl
      have htail : (scanAlias cs cs []).2.tail.tail.length ≤ cs.length := by
        rw [List.length_tail, List.length_tail]
        omega
      exact PathRead.aliases halias hnil rfl
        (hpaths _ htail _ [] false _ (fun _ h => nomatch h) hstops)

theorem readsPaths_step (hpaths : ∀ k : JsString, k.length < i.length → ReadsPaths k)
    (hpairs : ∀ k : JsString, k.length < i.length → ReadsPairs k) : ReadsPaths i := by
  intro index seg wildcard segments hread hstops
  by_cases hseg : seg = []
  · subst hseg
    obtain rfl : wildcard = false := by
      cases wildcard with
      | false => rfl
      | true => cases hread
    by_cases hstart : Starts i
    · cases i with
      | nil => rcases hstart with h | h | ⟨h, -⟩ <;> cases h
      | cons c cs =>
          exact readsPaths_start hstart (fun k hk => hpaths k (Nat.lt_succ_of_le hk))
            (hpairs cs (Nat.lt_succ_self _)) hstops
    · rw [scanPath_of_not_starts hstart]
      exact Or.inl rfl
  · by_cases hclose : legalChar (i.headD 0) = false ∨ wildcard = true
    · rw [scanPath_close hseg hclose] at hstops ⊢
      split_ifs at hstops ⊢ with hdot
      · exact Or.inr ⟨_, rfl, .last (.name i (hread.fragment hseg)) trivial⟩
      · have htail := headD_tail_length (by decide) (not_not.mp hdot)
        exact PathRead.name (hread.fragment hseg) (not_not.mp hdot) hstops
          (hpaths i.tail (by omega) i [] false _ (fun _ h => nomatch h) hstops)
    · rw [not_or, Bool.not_eq_false, Bool.not_eq_true] at hclose
      obtain ⟨hlegal, rfl⟩ := hclose
      cases i with
      | nil => cases hlegal
      | cons c cs =>
          have hc : legalChar c = true := hlegal
          rw [scanPath_legal hc] at hstops ⊢
          have hreading : Reading (seg ++ [c]) false := by
            intro d hd
            rcases List.mem_append.mp hd with hd | hd
            · exact hread d hd
            · rw [List.mem_singleton.mp hd]
              exact hc
          have hrest := hpaths cs (Nat.lt_succ_self _) index _ false segments hreading hstops
          rw [List.append_assoc] at hrest
          exact hrest

/-- What `parseAliasPath` and `parseAliasValue` read is a pair. -/
theorem derives_pair (hpaths : ∀ k : JsString, k.length ≤ i.length → ReadsPaths k) {v : JsString}
    (hpath : parseAliasPath (fun i => scanPath i i [] false []) i = some (p, k))
    (hvalue : parseAliasValue k = some (v, j)) : Derives language (.pair (p, v)) i j := by
  obtain ⟨m, hi⟩ := exists_spaces i
  rw [parseAliasPath] at hpath
  dsimp only at hpath
  split_ifs at hpath with hlen hcolon
  obtain ⟨rfl, rfl⟩ := Prod.mk.inj (Option.some.inj hpath)
  generalize hscan : scanPath (skipSpaces i) (skipSpaces i) [] false [] = r
  rw [hscan] at hlen hcolon hvalue
  obtain ⟨p, idx⟩ := r
  obtain ⟨n, hidx⟩ := exists_spaces idx
  cases hskip : skipSpaces idx with
  | nil => exact absurd (show (skipSpaces idx).headD 0 ≠ ':'.toNat by rw [hskip]; decide) hcolon
  | cons c k =>
      rw [hskip] at hcolon hidx hvalue
      obtain rfl : c = ':'.toNat := not_not.mp hcolon
      have hstops : Stops (scanPath (skipSpaces i) (skipSpaces i) [] false []).2 := by
        rw [hscan]
        exact hidx ▸ stops_spaces n k
      have hread := hpaths (skipSpaces i) (skipSpaces_length i) (skipSpaces i) [] false []
        (fun _ h => absurd h List.not_mem_nil) hstops
      rw [hscan] at hread
      rcases hread with heq | ⟨q, hq, hderives⟩
      · exact absurd (congrArg List.length (Prod.mk.inj heq).2) hlen
      · obtain rfl : p = q := hq
        have hderives : Derives language (.path p) (skipSpaces i) idx := hderives
        rw [hidx] at hderives
        rw [hi]
        exact .pair m n hderives ((value_of_parseAliasValue hvalue).mono language_ge.2.2)

theorem readsPairs_step (hpaths : ∀ k : JsString, k.length ≤ i.length → ReadsPaths k)
    (hpairs : ∀ k : JsString, k.length < i.length → ReadsPairs k) : ReadsPairs i := by
  intro index found hclose
  rw [scanAlias_eq] at hclose ⊢
  cases hpath : parseAliasPath (fun i => scanPath i i [] false []) i with
  | none => exact Or.inl rfl
  | some r =>
      obtain ⟨p, k⟩ := r
      rw [hpath] at hclose
      dsimp only at hclose ⊢
      cases hvalue : parseAliasValue k with
      | none => exact Or.inl rfl
      | some r =>
          obtain ⟨v, j⟩ := r
          rw [hvalue] at hclose
          dsimp only at hclose ⊢
          have hpair := derives_pair hpaths hpath hvalue
          split_ifs at hclose ⊢ with hcomma
          · exact Or.inr ⟨_, rfl, .one hpair⟩
          · have hlt := hpair.length
            have htail := headD_tail_length (by decide) (not_not.mp hcomma)
            exact PairsRead.more hpair (not_not.mp hcomma) hclose
              (hpairs j.tail (by omega) j _ hclose)

/-- Both loops, by induction on what is left of the text. -/
theorem reads_language (n : ℕ) :
    ∀ i : JsString, i.length < n → ReadsPaths i ∧ ReadsPairs i := by
  induction n with
  | zero => exact fun i h => absurd h (Nat.not_lt_zero _)
  | succ n ih =>
      have hpaths : ∀ i : JsString, i.length ≤ n → ReadsPaths i := fun i h =>
        readsPaths_step (fun k hk => (ih k (by omega)).1) fun k hk => (ih k (by omega)).2
      intro i h
      exact ⟨hpaths i (by omega),
        readsPairs_step (fun k hk => hpaths k (by omega)) fun k hk => (ih k (by omega)).2⟩

/-! ## The language and the grammar -/

theorem parsePath_of_derives {s : JsString} (h : Derives language (.path p) s []) :
    parsePath s = some p := by
  have hscan : scanPath s s [] false [] = (p, []) := h.scanned (Or.inl rfl) s []
  rw [parsePath_eq, hscan]
  rfl

/-- The parser accepts its language, and returns what is read. -/
theorem parsePath_iff (s : JsString) (p : Segments) :
    parsePath s = some p ↔ Reads language s p := by
  constructor
  · intro h
    rw [parsePath_eq] at h
    split_ifs at h with hend
    have hread := (reads_language (s.length + 1) s (Nat.lt_succ_self _)).1 s [] false []
      (fun _ h => nomatch h) (Or.inl hend)
    rcases hread with heq | ⟨q, hq, hderives⟩
    · rw [heq] at h hend
      exact Or.inl ⟨hend, (Option.some.inj h).symm⟩
    · rw [hend] at hderives
      obtain rfl : p = q := (Option.some.inj h).symm.trans hq
      exact Or.inr hderives
  · rintro (⟨rfl, rfl⟩ | h)
    · rfl
    · exact parsePath_of_derives h

/-- What is read where paths stop is read by the parser as well, or it rejects the text. -/
theorem reads_common_or_none {s : JsString} (h : Reads stopping s p) :
    Reads common s p ∨ parsePath s = none := by
  rcases h with h | h
  · exact Or.inl (Or.inl h)
  · rcases h.common_or_stuck (Or.inl rfl) with hcommon | hstuck
    · exact Or.inl (Or.inr hcommon)
    · obtain ⟨c, t, rfl, -⟩ := h.head
      refine Or.inr ?_
      rw [parsePath_eq, if_neg]
      intro hend
      rcases hstuck (c :: t) [] with hstart | hdot
      · exact absurd (hend.symm.trans hstart) (List.cons_ne_nil _ _).symm
      · rw [hend] at hdot
        exact absurd hdot (by decide)

/-- The parser accepts the grammar, where paths stop, just when every reading of the text is one
that the grammar and the parser have in common. -/
theorem parsePath_grammar_iff (s : JsString) :
    ((∀ p, parsePath s = some p ↔ Reads grammar s p) ∧
        ∀ p, Reads grammar s p → Reads stopping s p)
      ↔ (∀ p, Reads grammar s p → Reads common s p) ∧
        ∀ p, Reads language s p → Reads common s p := by
  constructor
  · rintro ⟨hparse, hstop⟩
    have hcommon : ∀ p, Reads grammar s p → Reads common s p := by
      intro p h
      rcases reads_common_or_none (hstop p h) with hp | hnone
      · exact hp
      · rw [(hparse p).mpr h] at hnone
        cases hnone
    exact ⟨hcommon, fun p h => hcommon p ((hparse p).mp ((parsePath_iff s p).mpr h))⟩
  · rintro ⟨hgrammar, hlanguage⟩
    refine ⟨fun p => ?_, fun p h => (hgrammar p h).mono common_le⟩
    rw [parsePath_iff]
    constructor
    · intro h
      exact ((hlanguage p h).mono common_le).mono stopping_le
    · intro h
      exact (hgrammar p h).mono language_ge

/-- The character behind a bracket is skipped, so that a text outside the grammar is accepted. -/
theorem skipped_behind_bracket :
    parsePath (js "[a:b]xc")
        = some [.aliases [([.name (js "a")], js "b")], .name (js "c")] ∧
      ∀ p, ¬ Reads grammar (js "[a:b]xc") p := by
  refine ⟨rfl, fun p h => ?_⟩
  rcases h with ⟨h, -⟩ | h
  · cases h
  · generalize hs : js "[a:b]xc" = s at h
    generalize hend : ([] : JsString) = j at h
    cases h with
    | last hsegment _ =>
        cases hsegment with
        | @name u j hu =>
            obtain ⟨c, t, rfl, -, -⟩ := fragment_start hu
            obtain rfl : '['.toNat = c := (List.cons.inj hs).1
            rcases hu with hu | ⟨-, hlegal⟩
            · exact absurd (List.cons.inj hu).1 (by decide)
            · exact absurd (hlegal _ (List.mem_cons_self ..)) (by decide)
        | empty j => exact absurd (List.cons.inj (List.cons.inj hs).2).1 (by decide)
        | bracket hpairs =>
            have hclose := hpairs.suffix
            rw [← hend, ← (List.cons.inj hs).2] at hclose
            exact absurd hclose (by decide)
    | cons hsegment hsep _ =>
        have hmem := hsegment.suffix.subset (List.mem_cons_self ..)
        rw [show _ = '.'.toNat from hsep, ← hs] at hmem
        exact absurd hmem (by decide)

end PathGrammar

end GenieAcs
