import GenieAcs.PathText

/-!
# Reading paths back from their texts

What `parsePath` returns is sound: its fragments are legal, its aliases are
sorted, and no path within an alias is empty. The text of a sound path is read
back, by induction on the path, if none of the values within it ends in a
backslash. The parser takes the closing quote behind such a value for an escaped
one, and leaves the path in front of the alias.
-/

namespace GenieAcs

/-! ## Quoted values -/

/-- No quote of the text is taken for the closing one. -/
def Passes (u : JsString) : Prop := ∀ prev t, closeQuote prev (u ++ t)
  = (closeQuote (u.getLastD prev) t).map fun r => (u ++ r.1, r.2)

theorem Passes.append {u v : JsString} (hu : Passes u) (hv : Passes v) : Passes (u ++ v) := by
  intro prev t
  have hlast : (u ++ v).getLastD prev = v.getLastD (u.getLastD prev) := by
    cases v with
    | nil => simp
    | cons c v => simp [List.getLastD_eq_getLast?]
  rw [List.append_assoc, hu, hv, hlast, Option.map_map]
  congr 1
  funext r
  simp

theorem passes_char {c : Nat} (hc : c ≠ '"'.toNat) : Passes [c] := by
  intro prev t
  show (if c = '"'.toNat ∧ prev ≠ '\\'.toNat then some ([c], t)
    else (closeQuote c t).map fun r => (c :: r.1, r.2)) = _
  rw [if_neg fun h => hc h.1]
  rfl

theorem passes_chars {u : JsString} (hu : ∀ c ∈ u, c ≠ '"'.toNat) : Passes u := by
  induction u with
  | nil => exact fun prev t => by simp
  | cons c u ih =>
      exact (passes_char (hu c (List.mem_cons_self ..))).append
        (ih fun c' h => hu c' (List.mem_cons_of_mem _ h))

/-- An escaped quote. -/
theorem passes_quote : Passes (js "\\\"") := by
  intro prev t
  show (if '\\'.toNat = '"'.toNat ∧ prev ≠ '\\'.toNat then some (['\\'.toNat], '"'.toNat :: t)
    else (if '"'.toNat = '"'.toNat ∧ '\\'.toNat ≠ '\\'.toNat then some (['"'.toNat], t)
      else (closeQuote '"'.toNat t).map fun r => ('"'.toNat :: r.1, r.2)).map
        fun r => ('\\'.toNat :: r.1, r.2)) = _
  rw [if_neg fun h => absurd h.1 (by decide), if_neg fun h => h.2 rfl, Option.map_map]
  rfl

theorem hexDigit_ne {n : Nat} (hn : n < 16) : hexDigit n ≠ '"'.toNat ∧ hexDigit n ≠ '\\'.toNat := by
  unfold hexDigit
  have h0 : '0'.toNat = 48 := rfl
  have ha : 'a'.toNat = 97 := rfl
  have hq : '"'.toNat = 34 := rfl
  have hs : '\\'.toNat = 92 := rfl
  rw [h0, ha, hq, hs]
  split_ifs <;> omega

theorem unicodeEscape_passes (c : Nat) : Passes (unicodeEscape c)
    ∧ (unicodeEscape c).getLast? ≠ some '\\'.toNat := by
  have hmod : ∀ n, n % 16 < 16 := fun n => Nat.mod_lt n (by omega)
  refine ⟨passes_chars ?_, ?_⟩
  · have hu : ∀ c ∈ js "\\u", c ≠ '"'.toNat := by decide
    intro d hd
    rcases List.mem_append.mp hd with hd | hd
    · exact hu d hd
    · simp only [List.mem_cons, List.not_mem_nil, or_false] at hd
      rcases hd with rfl | rfl | rfl | rfl
      · exact (hexDigit_ne (hmod _)).1
      · exact (hexDigit_ne (hmod _)).1
      · exact (hexDigit_ne (hmod _)).1
      · exact (hexDigit_ne (hmod _)).1
  · intro h
    exact (hexDigit_ne (hmod c)).2 (Option.some.inj h)

/-- A unit ends in a backslash when it stands for one. -/
theorem jsonUnit_passes (c : Nat) : Passes (jsonUnit c)
    ∧ ((jsonUnit c).getLast? = some '\\'.toNat ↔ c = '\\'.toNat) := by
  have hchars : ∀ u : JsString, (∀ c ∈ u, c ≠ '"'.toNat) → u.getLast? ≠ some '\\'.toNat →
      c ≠ '\\'.toNat → Passes u ∧ (u.getLast? = some '\\'.toNat ↔ c = '\\'.toNat) :=
    fun u hu hlast hc => ⟨passes_chars hu, iff_of_false hlast hc⟩
  unfold jsonUnit
  split_ifs with h1 h2 h3 h4 h5 h6 h7 h8
  · subst h1
    exact ⟨passes_quote, by decide⟩
  · subst h2
    exact ⟨passes_chars (by decide), by decide⟩
  · exact hchars _ (by decide) (by decide) h2
  · exact hchars _ (by decide) (by decide) h2
  · exact hchars _ (by decide) (by decide) h2
  · exact hchars _ (by decide) (by decide) h2
  · exact hchars _ (by decide) (by decide) h2
  · exact ⟨(unicodeEscape_passes c).1, iff_of_false (unicodeEscape_passes c).2 h2⟩
  · exact ⟨passes_char h1, by simp⟩

theorem surrogate_passes {c : Nat} (h : isHighSurrogate c = true ∨ isLowSurrogate c = true) :
    Passes [c] := by
  refine passes_char ?_
  rintro rfl
  revert h
  decide

theorem jsonUnits_ne_nil (c : Nat) (cs : JsString) : jsonUnits (c :: cs) ≠ [] := by
  intro h
  have hread := readUnits_jsonUnits (c :: cs)
  rw [h] at hread
  cases hread

theorem getLast?_append_of_ne {u v : JsString} (hv : v ≠ []) :
    (u ++ v).getLast? = v.getLast? := by
  rw [List.getLast?_append]
  cases hlast : v.getLast? with
  | none => exact absurd (List.getLast?_eq_none_iff.mp hlast) hv
  | some c => rfl

/-- The body of a JSON string ends in a backslash when the string does. -/
theorem jsonUnits_passes (s : JsString) : Passes (jsonUnits s)
    ∧ ((jsonUnits s).getLast? = some '\\'.toNat ↔ s.getLast? = some '\\'.toNat) := by
  have hstep : ∀ (u : JsString) (c d : Nat) (cs : JsString), Passes u →
      Passes (jsonUnits (d :: cs)) ∧ ((jsonUnits (d :: cs)).getLast? = some '\\'.toNat
        ↔ (d :: cs).getLast? = some '\\'.toNat) →
      Passes (u ++ jsonUnits (d :: cs)) ∧ ((u ++ jsonUnits (d :: cs)).getLast? = some '\\'.toNat
        ↔ (c :: d :: cs).getLast? = some '\\'.toNat) := by
    intro u c d cs hu ih
    refine ⟨hu.append ih.1, ?_⟩
    rw [getLast?_append_of_ne (jsonUnits_ne_nil d cs), ih.2, List.getLast?_cons_cons]
  induction s using jsonUnits.induct with
  | case1 => exact ⟨fun prev t => by simp [jsonUnits], by simp [jsonUnits]⟩
  | case2 c h =>
      rw [jsonUnits, if_pos h]
      refine ⟨(unicodeEscape_passes c).1, iff_of_false (unicodeEscape_passes c).2 ?_⟩
      intro hlast
      exact surrogate_plain h (Option.some.inj hlast)
  | case3 c h =>
      rw [jsonUnits, if_neg h]
      refine ⟨(jsonUnit_passes c).1, (jsonUnit_passes c).2.trans ?_⟩
      simp
  | case4 c d cs hhigh hlow ih =>
      rw [jsonUnits, if_pos hhigh, if_pos hlow]
      refine ⟨(surrogate_passes (Or.inl hhigh)).append
        ((surrogate_passes (Or.inr hlow)).append ih.1), ?_⟩
      cases cs with
      | nil => simp [jsonUnits]
      | cons e cs =>
          have hlast := getLast?_append_of_ne (u := [c, d]) (jsonUnits_ne_nil e cs)
          rw [show c :: d :: jsonUnits (e :: cs) = [c, d] ++ jsonUnits (e :: cs) from rfl, hlast,
            ih.2, List.getLast?_cons_cons, List.getLast?_cons_cons]
  | case5 c d cs hhigh hlow ih =>
      rw [jsonUnits, if_pos hhigh, if_neg hlow]
      exact hstep _ c d cs (unicodeEscape_passes c).1 ih
  | case6 c d cs hhigh hlow ih =>
      rw [jsonUnits, if_neg hhigh, if_pos hlow]
      exact hstep _ c d cs (unicodeEscape_passes c).1 ih
  | case7 c d cs hhigh hlow ih =>
      rw [jsonUnits, if_neg hhigh, if_neg hlow]
      exact hstep _ c d cs (jsonUnit_passes c).1 ih

/-- A value that `parseAliasValue` reads back from its JSON text. -/
def Readable (v : JsString) : Prop := v.getLast? ≠ some '\\'.toNat

instance (v : JsString) : Decidable (Readable v) := inferInstanceAs (Decidable (_ ≠ _))

theorem closeQuote_jsonUnits (v t : JsString) :
    closeQuote '"'.toNat (jsonUnits v ++ '"'.toNat :: t)
      = if Readable v then some (jsonUnits v ++ ['"'.toNat], t)
        else (closeQuote '"'.toNat t).map fun r => (jsonUnits v ++ '"'.toNat :: r.1, r.2) := by
  obtain ⟨hpasses, hlast⟩ := jsonUnits_passes v
  have hprev : (jsonUnits v).getLastD '"'.toNat ≠ '\\'.toNat ↔ Readable v := by
    rw [Readable, ne_eq, ne_eq, ← hlast, List.getLastD_eq_getLast?]
    cases (jsonUnits v).getLast? with
    | none => decide
    | some c => simp
  rw [hpasses, closeQuote]
  by_cases h : Readable v
  · rw [if_pos ⟨rfl, hprev.mpr h⟩, if_pos h]
    rfl
  · rw [if_neg fun hq => h (hprev.mp hq.2), if_neg h, Option.map_map]
    rfl

theorem closeQuote_mem {prev : Nat} {cs : JsString} {r : JsString × JsString}
    (h : closeQuote prev cs = some r) : '"'.toNat ∈ r.1 := by
  induction cs generalizing prev r with
  | nil => cases h
  | cons c cs ih =>
      rw [closeQuote] at h
      split_ifs at h with hc
      · obtain rfl := Option.some.inj h
        rw [hc.1]
        exact List.mem_singleton_self _
      · obtain ⟨r', hr', rfl⟩ := Option.map_eq_some_iff.mp h
        exact List.mem_cons_of_mem _ (ih hr')

/-- The text of a value is read back, unless the value ends in a backslash. -/
theorem parseAliasValue_jsonString (v t : JsString) :
    parseAliasValue (jsonString v ++ t) = if Readable v then some (v, t) else none := by
  have htext : jsonString v ++ t = '"'.toNat :: (jsonUnits v ++ '"'.toNat :: t) := by
    simp [jsonString, js]
  have hskip : skipSpaces ('"'.toNat :: (jsonUnits v ++ '"'.toNat :: t))
      = '"'.toNat :: (jsonUnits v ++ '"'.toNat :: t) := rfl
  rw [htext, parseAliasValue, hskip]
  simp only [if_pos]
  rw [closeQuote_jsonUnits]
  by_cases h : Readable v
  · have hparse : parseJsonString ('"'.toNat :: (jsonUnits v ++ ['"'.toNat])) = some v := by
      have hjson := parseJsonString_jsonString v
      rw [jsonString, List.append_assoc] at hjson
      exact hjson
    rw [if_pos h, if_pos h, Option.bind_eq_bind, Option.bind_some]
    simp only [hparse]
    rfl
  · rw [if_neg h, if_neg h]
    cases hclose : closeQuote '"'.toNat t with
    | none => rfl
    | some r =>
        have hparse : parseJsonString ('"'.toNat :: (jsonUnits v ++ '"'.toNat :: r.1)) = none := by
          have hjson := parseJsonString_append v r.1
          rw [jsonString, List.append_assoc, List.append_assoc] at hjson
          refine hjson.trans (if_neg fun hall => ?_)
          exact absurd (List.all_eq_true.mp hall _ (closeQuote_mem hclose)) (by decide)
        rw [Option.map_some, Option.bind_eq_bind, Option.bind_some]
        simp only [hparse]
        rfl

/-! ## Paths that parsing can produce -/

mutual

def Segment.Sound : Segment → Prop
  | .name s => Fragment s
  | .aliases pairs => AliasSound pairs ∧ pairs.Pairwise aliasOrder

def PathSound : List Segment → Prop
  | [] => True
  | s :: segments => s.Sound ∧ PathSound segments

def AliasSound : List (List Segment × JsString) → Prop
  | [] => True
  | p :: pairs => PairSound p ∧ AliasSound pairs

def PairSound : List Segment × JsString → Prop
  | (path, _) => path ≠ [] ∧ PathSound path

end

theorem pathSound_append {p q : List Segment} (hp : PathSound p) (hq : PathSound q) :
    PathSound (p ++ q) := by
  induction p with
  | nil => exact hq
  | cons s p ih => exact ⟨hp.1, ih hp.2⟩

theorem pathSound_singleton {s : Segment} (h : s.Sound) : PathSound [s] := ⟨h, trivial⟩

theorem aliasSound_iff {l : List (List Segment × JsString)} :
    AliasSound l ↔ ∀ p ∈ l, PairSound p := by
  induction l with
  | nil => simp [AliasSound]
  | cons p l ih => rw [AliasSound, ih, List.forall_mem_cons]

instance : Std.Total aliasOrder := ⟨fun _ _ => le_total _ _⟩

instance : IsTrans (Segments × JsString) aliasOrder := ⟨fun _ _ _ => le_trans⟩

theorem sortAlias_sound {found : Alias} (h : AliasSound found) :
    (Segment.aliases (sortAlias found)).Sound := by
  refine ⟨aliasSound_iff.mpr fun p hp => ?_, List.pairwise_insertionSort _ _⟩
  exact aliasSound_iff.mp h p ((List.perm_insertionSort aliasOrder found).mem_iff.mp hp)

theorem sortAlias_eq {found : Alias} (h : found.Pairwise aliasOrder) : sortAlias found = found :=
  h.insertionSort_eq

/-- The characters of a segment while it is read. -/
def Reading (seg : JsString) (wildcard : Bool) : Prop :=
  if wildcard then seg = star else ∀ c ∈ seg, legalChar c = true

theorem Reading.fragment {seg : JsString} {wildcard : Bool} (h : Reading seg wildcard)
    (hne : seg ≠ []) : Fragment seg := by
  cases wildcard with
  | true => exact Or.inl h
  | false => exact Or.inr ⟨hne, h⟩

/-- New segments are sound, and if there are none the index stays. -/
def Grows (segments : Segments) (index : JsString) (r : Segments × JsString) : Prop :=
  ∃ more, r.1 = segments ++ more ∧ PathSound more ∧ (more = [] → r.2 = index)

theorem Grows.after {segments : Segments} {index index' : JsString} {s : Segment}
    {r : Segments × JsString} (hs : s.Sound) (h : Grows (segments ++ [s]) index' r) :
    Grows segments index r := by
  obtain ⟨more, hr, hmore, -⟩ := h
  refine ⟨s :: more, ?_, ⟨hs, hmore⟩, fun h => nomatch h⟩
  rw [hr, List.append_assoc]
  rfl

theorem parse_sound (n : Nat) :
    (∀ index i seg wildcard segments, Reading seg wildcard →
      Grows segments index (parsePathFrom n index i seg wildcard segments))
    ∧ ∀ index i found, AliasSound found →
      (Segment.aliases (parseAliasFrom n index i found).1).Sound := by
  have hsame : ∀ (segments : Segments) (index : JsString), Grows segments index (segments, index) :=
    fun segments index => ⟨[], (List.append_nil _).symm, trivial, fun _ => rfl⟩
  have hnew : ∀ (segments : Segments) (index i : JsString) (s : Segment), s.Sound →
      Grows segments index (segments ++ [s], i) :=
    fun segments index i s hs => ⟨[s], rfl, pathSound_singleton hs, fun h => nomatch h⟩
  have hempty : Reading [] false := fun c h => nomatch h
  have hnil : AliasSound [] := trivial
  have hname : ∀ {seg : JsString} {wildcard : Bool}, Reading seg wildcard → seg ≠ [] →
      (Segment.name seg).Sound := fun h hne => h.fragment hne
  induction n with
  | zero => exact ⟨fun index _ _ _ segments _ => hsame segments index,
      fun index _ found hfound => sortAlias_sound hfound⟩
  | succ n ih =>
      obtain ⟨ihpath, ihalias⟩ := ih
      refine ⟨fun index i seg wildcard segments hseg => ?_, fun index i found hfound => ?_⟩
      · rw [parsePathFrom]
        simp only
        split_ifs with h1 h2 h3 h4 h5 h6 h7
        · exact hsame segments index
        · exact hnew segments index [] _ (ihalias _ _ _ hnil)
        · exact (ihpath _ _ _ _ _ hempty).after (ihalias _ _ _ hnil)
        · refine ihpath _ _ _ _ _ ?_
          show [i.headD 0] = star
          rw [h4.1]
          rfl
        · exact hsame segments index
        · exact hnew segments index i _ (hname hseg h6)
        · exact (ihpath _ _ _ _ _ hempty).after (hname hseg h6)
        · rw [not_or, Bool.not_eq_false, Bool.not_eq_true] at h5
          refine ihpath _ _ _ _ _ fun c hc => ?_
          rw [Reading, h5.2] at hseg
          rcases List.mem_append.mp hc with hc | hc
          · exact hseg c hc
          · rw [List.mem_singleton.mp hc]
            exact h5.1
      · rw [parseAliasFrom]
        cases hpath : parseAliasPath (fun i => parsePathFrom n i i [] false []) i with
        | none => exact sortAlias_sound hfound
        | some r =>
            have hpair : PathSound r.1 ∧ r.1 ≠ [] := by
              unfold parseAliasPath at hpath
              simp only at hpath
              split_ifs at hpath with hlen hcolon
              obtain rfl := Option.some.inj hpath
              obtain ⟨more, hmore, hsound, hnone⟩ :=
                ihpath (skipSpaces i) (skipSpaces i) [] false [] hempty
              refine ⟨hmore ▸ hsound, fun h => hlen ?_⟩
              rw [List.nil_append] at hmore
              rw [hnone (hmore ▸ h)]
            cases hvalue : parseAliasValue r.2 with
            | none =>
                simp only [hvalue]
                exact sortAlias_sound hfound
            | some r' =>
                have hfound' : AliasSound (found ++ [(r.1, r'.1)]) := by
                  refine aliasSound_iff.mpr fun p hp => ?_
                  rcases List.mem_append.mp hp with hp | hp
                  · exact aliasSound_iff.mp hfound p hp
                  · rw [List.mem_singleton.mp hp]
                    exact ⟨hpair.2, hpair.1⟩
                simp only [hvalue]
                split_ifs
                · exact sortAlias_sound hfound'
                · exact ihalias _ _ _ hfound'

/-- What `parsePath` returns is sound. -/
theorem parsePath_sound {s : JsString} {p : Segments} (h : parsePath s = some p) :
    PathSound p := by
  rw [parsePath_eq] at h
  split_ifs at h
  obtain rfl := Option.some.inj h
  obtain ⟨more, hmore, hsound, -⟩ := (parse_sound (2 * s.length + 1)).1 s s [] false []
    fun c h => nomatch h
  rw [scanPath, hmore]
  exact hsound

/-! ## Reading texts back -/

/-- What stands behind a segment in the text of a path. -/
def Follows (rest : JsString) : Prop :=
  rest = [] ∨ rest.headD 0 = '.'.toNat ∨ ∃ r, rest = ':'.toNat :: '"'.toNat :: r

theorem Follows.illegal {rest : JsString} (h : Follows rest) :
    legalChar (rest.headD 0) = false := by
  rcases h with rfl | h | ⟨r, rfl⟩
  · rfl
  · rw [h]
    rfl
  · rfl

theorem fragment_start {s : JsString} (h : Fragment s) :
    ∃ c cs, s = c :: cs ∧ c ≠ 32 ∧ c ≠ ']'.toNat := by
  rcases h with rfl | ⟨hne, hs⟩
  · exact ⟨_, _, rfl, by decide, by decide⟩
  · cases s with
    | nil => exact absurd rfl hne
    | cons c cs =>
        have hc := hs c (List.mem_cons_self ..)
        refine ⟨c, cs, rfl, ?_, ?_⟩
        · rintro rfl
          revert hc
          decide
        · rintro rfl
          revert hc
          decide

/-- The text of a path starts with neither a space nor a bracket that closes. -/
theorem pathText_start {p : List Segment} (hne : p ≠ []) (hp : PathSound p) :
    ∃ c cs, pathText p = c :: cs ∧ c ≠ 32 ∧ c ≠ ']'.toNat := by
  cases p with
  | nil => exact absurd rfl hne
  | cons s p =>
      cases s with
      | name s =>
          obtain ⟨c, cs, hs, hspace, hclose⟩ := fragment_start hp.1
          subst hs
          exact ⟨c, cs ++ pathTail p, by rw [pathText, Segment.toText, List.cons_append], hspace, hclose⟩
      | aliases pairs =>
          exact ⟨'['.toNat, aliasText pairs ++ js "]" ++ pathTail p, by
            rw [pathText, Segment.toText]; simp [js], by decide, by decide⟩

theorem skipSpaces_of_ne {c : Nat} (hc : c ≠ 32) (cs : JsString) :
    skipSpaces (c :: cs) = c :: cs :=
  List.dropWhile_cons_of_neg (by simpa using hc)

theorem pathTail_head (s : Segment) (p : List Segment) (rest : JsString) :
    (pathTail (s :: p) ++ rest).headD 0 = '.'.toNat
      ∧ (pathTail (s :: p) ++ rest).tail = pathText (s :: p) ++ rest := by
  rw [pathTail, pathText]
  simp [js]

/-- A path behind which a colon and a quote stand, as in the text of an alias. -/
theorem parseAliasPath_text {p : List Segment} (hne : p ≠ []) (hp : PathSound p) (v t : JsString)
    (hscan : scanPath (pathText p ++ ':'.toNat :: (jsonString v ++ t))
        (pathText p ++ ':'.toNat :: (jsonString v ++ t)) [] false []
      = (p, ':'.toNat :: (jsonString v ++ t))) :
    parseAliasPath (fun i => scanPath i i [] false []) (pairText (p, v) ++ t)
      = some (p, jsonString v ++ t) := by
  have htext : pairText (p, v) ++ t = pathText p ++ ':'.toNat :: (jsonString v ++ t) := by
    rw [pairText]
    simp [js]
  obtain ⟨c, cs, hstart, hspace, -⟩ := pathText_start hne hp
  have hskip : skipSpaces (pathText p ++ ':'.toNat :: (jsonString v ++ t))
      = pathText p ++ ':'.toNat :: (jsonString v ++ t) := by
    rw [hstart, List.cons_append, skipSpaces_of_ne hspace]
  have hcolon : skipSpaces (':'.toNat :: (jsonString v ++ t)) = ':'.toNat :: (jsonString v ++ t) :=
    skipSpaces_of_ne (by decide) _
  rw [htext, parseAliasPath, hskip, hscan]
  simp only [hcolon]
  rw [if_neg, if_neg fun h => h rfl]
  · rfl
  · show ¬ (':'.toNat :: (jsonString v ++ t)).length = _
    simp only [hstart, List.length_append, List.length_cons]
    omega

/-- Nothing starts with a bracket that closes. -/
theorem parseAliasPath_close (rest : JsString) :
    parseAliasPath (fun i => scanPath i i [] false []) (']'.toNat :: rest) = none := by
  have hskip : skipSpaces (']'.toNat :: rest) = ']'.toNat :: rest :=
    skipSpaces_of_ne (by decide) _
  have hstop : scanPath (']'.toNat :: rest) (']'.toNat :: rest) [] false []
      = ([], ']'.toNat :: rest) := by
    refine scanPath_stop rfl ?_ ?_
    · show ']'.toNat ≠ '['.toNat
      decide
    · show ']'.toNat ≠ '*'.toNat
      decide
  rw [parseAliasPath, hskip, hstop]
  exact if_pos rfl

theorem aliases_text (pairs : List (List Segment × JsString)) (rest : JsString) :
    (Segment.aliases pairs).toText ++ rest
      = '['.toNat :: (aliasText pairs ++ ']'.toNat :: rest) := by
  rw [Segment.toText]
  simp [js]

theorem aliasTail_head (p : List Segment × JsString) (pairs : List (List Segment × JsString))
    (rest : JsString) : (aliasTail (p :: pairs) ++ rest).headD 0 = ','.toNat
      ∧ (aliasTail (p :: pairs) ++ rest).tail = aliasText (p :: pairs) ++ rest := by
  rw [aliasTail, aliasText]
  simp [js]

theorem aliasText_start {pairs : List (List Segment × JsString)} (hp : AliasSound pairs)
    (hv : ¬ ∀ v ∈ aliasValues pairs, Readable v) {rest : JsString} :
    (aliasText pairs ++ rest).headD 0 ≠ ']'.toNat := by
  cases pairs with
  | nil => exact absurd (fun v h => nomatch h) hv
  | cons p pairs =>
      obtain ⟨path, v⟩ := p
      obtain ⟨c, cs, hstart, -, hclose⟩ := pathText_start hp.1.1 hp.1.2
      rw [aliasText, pairText, hstart]
      exact hclose

theorem jsonString_start (v t : JsString) :
    ∃ r, ':'.toNat :: (jsonString v ++ t) = ':'.toNat :: '"'.toNat :: r :=
  ⟨jsonUnits v ++ '"'.toNat :: t, by simp [jsonString, js]⟩

mutual

/-- A segment whose values are readable is read, and reading goes on behind it. -/
theorem scan_segment (s : Segment) (hs : s.Sound) (hv : ∀ v ∈ s.values, Readable v)
    {index rest : JsString} {segments : Segments} (hrest : Follows rest) :
    scanPath index (s.toText ++ rest) [] false segments
      = if rest.headD 0 ≠ '.'.toNat then (segments ++ [s], rest)
        else scanPath rest rest.tail [] false (segments ++ [s]) := by
  match s with
  | .name s => exact scanPath_name hs hrest.illegal
  | .aliases pairs =>
      rw [Segment.values] at hv
      have halias : scanAlias (aliasText pairs ++ ']'.toNat :: rest)
          (aliasText pairs ++ ']'.toNat :: rest) [] = (sortAlias pairs, ']'.toNat :: rest) :=
        scan_alias pairs hs.1 hv fun h => h ▸ rfl
      rw [sortAlias_eq hs.2] at halias
      rw [aliases_text, scanPath_bracket, halias, if_neg fun h => h rfl]
      show (if rest = [] then (segments ++ [Segment.aliases pairs], [])
        else scanPath rest rest.tail [] false (segments ++ [Segment.aliases pairs])) = _
      rcases hrest with rfl | hdot | ⟨r, rfl⟩
      · rfl
      · have hne : rest ≠ [] := by
          rintro rfl
          exact absurd hdot (by decide)
        rw [if_neg hne, if_neg (not_not.mpr hdot)]
      · have hcolon : (':'.toNat :: '"'.toNat :: r).headD 0 ≠ '.'.toNat := by
          show ':'.toNat ≠ '.'.toNat
          decide
        rw [if_neg (List.cons_ne_nil _ _), if_pos hcolon]
        refine scanPath_stop rfl ?_ ?_
        · show '"'.toNat ≠ '['.toNat
          decide
        · show '"'.toNat ≠ '*'.toNat
          decide

/-- The text of a path whose values are readable is read. -/
theorem scan_path (p : List Segment) (hne : p ≠ []) (hp : PathSound p)
    (hv : ∀ v ∈ pathValues p, Readable v) {index rest : JsString} {segments : Segments}
    (hrest : rest = [] ∨ ∃ r, rest = ':'.toNat :: '"'.toNat :: r) :
    scanPath index (pathText p ++ rest) [] false segments = (segments ++ p, rest) := by
  match p with
  | [] => exact absurd rfl hne
  | s :: p =>
      rw [pathValues] at hv
      have hs : ∀ v ∈ s.values, Readable v := fun v h => hv v (List.mem_append_left _ h)
      have hv' : ∀ v ∈ pathValues p, Readable v := fun v h => hv v (List.mem_append_right _ h)
      rw [pathText, List.append_assoc]
      match p with
      | [] =>
          have hend : rest.headD 0 ≠ '.'.toNat := by
            rcases hrest with rfl | ⟨r, rfl⟩
            · decide
            · show ':'.toNat ≠ '.'.toNat
              decide
          rw [pathTail, List.nil_append, scan_segment s hp.1 hs (hrest.imp_right Or.inr)]
          exact if_pos hend
      | s' :: p =>
          obtain ⟨hdot, htail⟩ := pathTail_head s' p rest
          rw [scan_segment s hp.1 hs (Or.inr (Or.inl hdot)), if_neg (not_not.mpr hdot), htail,
            scan_path (s' :: p) (List.cons_ne_nil _ _) hp.2 hv' hrest, List.append_assoc]
          rfl

/-- The text of an alias whose values are readable is read. -/
theorem scan_alias (pairs : List (List Segment × JsString)) (hp : AliasSound pairs)
    (hv : ∀ v ∈ aliasValues pairs, Readable v) {index rest : JsString} {found : Alias}
    (hindex : pairs = [] → index = ']'.toNat :: rest) :
    scanAlias index (aliasText pairs ++ ']'.toNat :: rest) found
      = (sortAlias (found ++ pairs), ']'.toNat :: rest) := by
  match pairs with
  | [] =>
      rw [aliasText, List.nil_append, scanAlias_eq, parseAliasPath_close, hindex rfl,
        List.append_nil]
  | (path, v) :: pairs =>
      obtain ⟨⟨hne, hpath⟩, hpairs⟩ := hp
      rw [aliasValues, pairValues] at hv
      have hv₁ : Readable v := hv v (List.mem_append_left _ (List.mem_cons_self ..))
      have hv₂ : ∀ w ∈ pathValues path, Readable w :=
        fun w h => hv w (List.mem_append_left _ (List.mem_cons_of_mem _ h))
      have hv₃ : ∀ w ∈ aliasValues pairs, Readable w := fun w h => hv w (List.mem_append_right _ h)
      rw [aliasText, List.append_assoc, scanAlias_eq, parseAliasPath_text hne hpath v _
        (scan_path path hne hpath hv₂ (Or.inr (jsonString_start v _)))]
      simp only [parseAliasValue_jsonString, if_pos hv₁]
      match pairs with
      | [] =>
          rw [aliasTail, List.nil_append, if_pos]
          show ']'.toNat ≠ ','.toNat
          decide
      | p :: pairs =>
          obtain ⟨hcomma, htail⟩ := aliasTail_head p pairs (']'.toNat :: rest)
          rw [if_neg (not_not.mpr hcomma), htail,
            scan_alias (p :: pairs) hpairs hv₃ (fun h => nomatch h), ← List.append_cons]

end

/-! ## Texts that are not read back -/

/-- A path that is left where it starts, or at a dot, is none. -/
theorem parseAliasPath_left {p : List Segment} (hne : p ≠ []) (hp : PathSound p) (t : JsString)
    (h : (scanPath (pathText p ++ t) (pathText p ++ t) [] false []).2 = pathText p ++ t
      ∨ (scanPath (pathText p ++ t) (pathText p ++ t) [] false []).2.headD 0 = '.'.toNat) :
    parseAliasPath (fun i => scanPath i i [] false []) (pathText p ++ t) = none := by
  obtain ⟨c, cs, hstart, hspace, -⟩ := pathText_start hne hp
  have hskip : skipSpaces (pathText p ++ t) = pathText p ++ t := by
    rw [hstart, List.cons_append, skipSpaces_of_ne hspace]
  rw [parseAliasPath, hskip]
  rcases h with h | h
  · exact if_pos (congrArg List.length h)
  · have hdot : (skipSpaces (scanPath (pathText p ++ t) (pathText p ++ t) [] false []).2).headD 0
        ≠ ':'.toNat := by
      generalize (scanPath (pathText p ++ t) (pathText p ++ t) [] false []).2 = idx at h
      cases idx with
      | nil => decide
      | cons d ds =>
          obtain rfl : d = '.'.toNat := h
          rw [skipSpaces_of_ne (by decide)]
          show '.'.toNat ≠ ':'.toNat
          decide
    simp only [if_pos hdot]
    exact ite_self _

mutual

/-- A segment with a value that is not readable is not read at all. -/
theorem fail_segment (s : Segment) (hs : s.Sound) (hv : ¬ ∀ v ∈ s.values, Readable v)
    {index rest : JsString} {segments : Segments} :
    scanPath index (s.toText ++ rest) [] false segments = (segments, index) := by
  match s with
  | .name s => exact absurd (fun v h => nomatch h) hv
  | .aliases pairs =>
      rw [Segment.values] at hv
      rw [aliases_text, scanPath_bracket]
      exact if_pos (fail_alias pairs hs.1 hv (aliasText_start hs.1 hv))

/-- A path with a value that is not readable is left before its end. -/
theorem fail_path (p : List Segment) (hp : PathSound p) (hv : ¬ ∀ v ∈ pathValues p, Readable v)
    {index rest : JsString} {segments : Segments} :
    (scanPath index (pathText p ++ rest) [] false segments).2 = index
      ∨ (scanPath index (pathText p ++ rest) [] false segments).2.headD 0 = '.'.toNat := by
  match p with
  | [] => exact absurd (fun v h => nomatch h) hv
  | s :: p =>
      rw [pathText, List.append_assoc]
      by_cases hs : ∀ v ∈ s.values, Readable v
      · have hv' : ¬ ∀ v ∈ pathValues p, Readable v := fun h =>
          hv fun v hmem => (List.mem_append.mp hmem).elim (hs v) (h v)
        match p with
        | [] => exact absurd (fun v h => nomatch h) hv'
        | s' :: p =>
            obtain ⟨hdot, htail⟩ := pathTail_head s' p rest
            rw [scan_segment s hp.1 hs (Or.inr (Or.inl hdot)), if_neg (not_not.mpr hdot), htail]
            rcases fail_path (s' :: p) hp.2 hv' with h | h
            · exact Or.inr (h ▸ hdot)
            · exact Or.inr h
      · rw [fail_segment s hp.1 hs]
        exact Or.inl rfl

/-- An alias with a value that is not readable is left before its bracket. -/
theorem fail_alias (pairs : List (List Segment × JsString)) (hp : AliasSound pairs)
    (hv : ¬ ∀ v ∈ aliasValues pairs, Readable v) {index rest : JsString} {found : Alias}
    (hindex : index.headD 0 ≠ ']'.toNat) :
    (scanAlias index (aliasText pairs ++ ']'.toNat :: rest) found).2.headD 0 ≠ ']'.toNat := by
  match pairs with
  | [] => exact absurd (fun v h => nomatch h) hv
  | (path, v) :: pairs =>
      obtain ⟨⟨hne, hpath⟩, hpairs⟩ := hp
      rw [aliasValues, pairValues] at hv
      rw [aliasText, List.append_assoc, scanAlias_eq]
      by_cases hgood : ∀ w ∈ pathValues path, Readable w
      · rw [parseAliasPath_text hne hpath v _
          (scan_path path hne hpath hgood (Or.inr (jsonString_start v _)))]
        by_cases hr : Readable v
        · simp only [parseAliasValue_jsonString, if_pos hr]
          have hv' : ¬ ∀ w ∈ aliasValues pairs, Readable w := by
            intro h
            refine hv fun w hmem => ?_
            rcases List.mem_append.mp hmem with hmem | hmem
            · rcases List.mem_cons.mp hmem with rfl | hmem
              · exact hr
              · exact hgood w hmem
            · exact h w hmem
          match pairs with
          | [] => exact absurd (fun v h => nomatch h) hv'
          | p :: pairs =>
              obtain ⟨hcomma, htail⟩ := aliasTail_head p pairs (']'.toNat :: rest)
              rw [if_neg (not_not.mpr hcomma), htail]
              exact fail_alias (p :: pairs) hpairs hv' (by rw [hcomma]; decide)
        · simp only [parseAliasValue_jsonString, if_neg hr]
          exact hindex
      · have htext : pairText (path, v) ++ (aliasTail pairs ++ ']'.toNat :: rest)
            = pathText path ++ (js ":" ++ jsonString v ++ (aliasTail pairs ++ ']'.toNat :: rest)) := by
          rw [pairText]
          simp
        rw [htext, parseAliasPath_left hne hpath _ (fail_path path hpath hgood)]
        exact hindex

end

/-- A path that parsing can produce is read back from its text just when none
of its values ends in a backslash; otherwise its text is no path. -/
theorem parsePath_text {p : Segments} (hp : PathSound p) :
    parsePath (pathText p) = if ∀ v ∈ pathValues p, Readable v then some p else none := by
  rw [parsePath_eq]
  by_cases hne : p = []
  · subst hne
    rfl
  obtain ⟨c, cs, hstart, -, -⟩ := pathText_start hne hp
  by_cases hv : ∀ v ∈ pathValues p, Readable v
  · have hscan := @scan_path p hne hp hv (pathText p) [] [] (Or.inl rfl)
    rw [List.append_nil, List.nil_append] at hscan
    rw [hscan, if_pos hv]
    rfl
  · rw [if_neg hv, if_neg]
    have hfail := @fail_path p hp hv (pathText p) [] []
    rw [List.append_nil] at hfail
    intro hend
    rw [hend, hstart] at hfail
    rcases hfail with h | h
    · cases h
    · exact absurd h (by decide)

end GenieAcs
