import Mathlib.Data.List.Chain
import GenieAcs.Lib.RegExp
import GenieAcs.LikePatterns
import GenieAcs.MongoQuery

/-!
# Regular expressions of LIKE patterns

`likePatternToRegExp` prints the expression that filters are evaluated with in
memory, `MongoClauseLike.toQuery` the one that the database gets. What they find
is compared with the texts that the tokens of the pattern match.

Both write a backslash as a slash. In memory a dot takes no line terminator, so
that `_`, and `%` between other tokens, miss the texts that have one there. In the
database `$` also holds before a final newline, and the empty pattern becomes the
word `undefined`.
-/

namespace GenieAcs

namespace Like

open RegExp

/-! ## Dialects -/

/-- What no dot takes without the `s` flag. -/
def LineTerminator (c : Nat) : Prop := c ∈ [10, 13, 0x2028, 0x2029]

/-- `new RegExp(source)`. -/
def javascript : Dialect Nat where
  dot u := ∃ c, u = [c] ∧ ¬ LineTerminator c
  atEnd r := r = []

/-- `$regularExpression` with `s`; `dot` is what the server takes for one character. -/
def pcre (dot : JsString → Prop) : Dialect Nat where
  dot := dot
  atEnd r := r = [] ∨ r = js "\n"

/-! ## Source texts -/

/-- The item that a token is printed as. -/
def item (t : JsString) : Item Nat :=
  if t = anyRun then .many
  else if t = anyOne then .any
  else if t = js "\\" then .unit '/'.toNat
  else .unit (t.headD 0)

/-- The code units that `convChars` puts a backslash in front of. -/
def escaped : List Nat := js "-/^$*+?.()|[]\x7b\x7d"

theorem unit_ne_run (c : Nat) : [c] ≠ anyRun := fun h => nomatch congrArg List.length h

theorem unit_ne_one (c : Nat) : [c] ≠ anyOne := fun h => nomatch congrArg List.length h

theorem convChars_unit {c : Nat} (hc : [c] ≠ js "\\") :
    convChars [c] = if c ∈ escaped then '\\'.toNat :: [c] else [c] := by
  have hmem : [c] ∈ ["-", "/", "^", "$", "*", "+", "?", ".", "(", ")", "|", "[", "]", "\x7b",
      "\x7d"].map js ↔ c ∈ escaped := by
    simp [js, escaped]
  rw [convChars, if_neg hc, if_neg (unit_ne_run c), if_neg (unit_ne_one c)]
  by_cases h : c ∈ escaped
  · rw [if_pos (hmem.mpr h), if_pos h]
    rfl
  · rw [if_neg (mt hmem.mp h), if_neg h]

theorem convChars_backslash : convChars (js "\\") = js "\\/" := if_pos rfl

theorem convChars_run : convChars anyRun = js ".*" := by decide

theorem convChars_one : convChars anyOne = js "." := by decide

theorem item_unit {c : Nat} (hc : [c] ≠ js "\\") : item [c] = .unit c := by
  rw [item, if_neg (unit_ne_run c), if_neg (unit_ne_one c), if_neg hc]
  rfl

/-- How a token is printed. -/
theorem convChars_cases {motive : JsString → JsString → Prop} {t : JsString} (ht : IsToken t)
    (run : motive anyRun (js ".*")) (one : motive anyOne (js "."))
    (backslash : motive (js "\\") (js "\\/"))
    (special : ∀ c, [c] ≠ js "\\" → c ∈ escaped → motive [c] ['\\'.toNat, c])
    (plain : ∀ c, [c] ≠ js "\\" → c ∉ escaped → motive [c] [c]) : motive t (convChars t) := by
  rcases ht with rfl | rfl | ⟨c, rfl⟩
  · rw [convChars_run]
    exact run
  · rw [convChars_one]
    exact one
  · by_cases hc : [c] = js "\\"
    · rw [hc, convChars_backslash]
      exact backslash
    · rw [convChars_unit hc]
      by_cases h : c ∈ escaped
      · rw [if_pos h]
        exact special c hc h
      · rw [if_neg h]
        exact plain c hc h

/-- A printed token is read as its item. -/
theorem parse_convChars {t r : JsString} (ht : IsToken t) (hr : r.head? ≠ some '*'.toNat) :
    RegExp.parse (convChars t ++ r) = (RegExp.parse r).map (item t :: ·) := by
  refine convChars_cases (motive := fun t printed =>
    RegExp.parse (printed ++ r) = (RegExp.parse r).map (item t :: ·)) ht rfl ?_ rfl ?_ ?_
  · cases r with
    | nil => rfl
    | cons d r =>
        have hd : d ≠ '*'.toNat := fun heq => hr (congrArg some heq)
        exact if_neg hd
  · intro c hc h
    have hall : ∀ d ∈ escaped, d ∈ punctuation := by decide
    rw [item_unit hc]
    exact if_pos (hall c h)
  · intro c hc h
    have hall : ∀ d ∈ js "\\.^$*+?()[]|\x7b\x7d", [d] = js "\\" ∨ d ∈ escaped := by decide
    rw [item_unit hc]
    exact parse_unit r fun hmem => (hall c hmem).elim hc h

theorem convChars_ne_nil {t : JsString} (ht : IsToken t) : convChars t ≠ [] := by
  refine convChars_cases (motive := fun _ printed => printed ≠ []) ht ?_ ?_ ?_ ?_ ?_
  all_goals
    intros
    exact fun h => nomatch h

theorem convChars_eq_run {t : JsString} (ht : IsToken t) : convChars t = js ".*" ↔ t = anyRun := by
  refine convChars_cases (motive := fun t printed => printed = js ".*" ↔ t = anyRun) ht
    (iff_of_true rfl rfl) ?_ ?_ ?_ ?_
  · exact iff_of_false (fun h => nomatch congrArg List.length h) fun h =>
      absurd (List.cons.inj (List.cons.inj h).2).1 (by decide)
  · exact iff_of_false (fun h => absurd (List.cons.inj h).1 (by decide)) (unit_ne_run _)
  · exact fun c _ _ =>
      iff_of_false (fun h => absurd (List.cons.inj h).1 (by decide)) (unit_ne_run c)
  · exact fun c _ _ => iff_of_false (fun h => nomatch congrArg List.length h) (unit_ne_run c)

/-- No printed token begins with a star. -/
theorem head_convChars {t r : JsString} (ht : IsToken t) :
    (convChars t ++ r).head? ≠ some '*'.toNat := by
  refine convChars_cases (motive := fun _ printed => (printed ++ r).head? ≠ some '*'.toNat) ht
    ?_ ?_ ?_ ?_ ?_
  · exact fun h => absurd (Option.some.inj h) (by decide)
  · exact fun h => absurd (Option.some.inj h) (by decide)
  · exact fun h => absurd (Option.some.inj h) (by decide)
  · exact fun c _ _ h => absurd (Option.some.inj h) (by decide)
  · intro c _ hplain heq
    rw [Option.some.inj heq] at hplain
    exact hplain (by decide)

theorem parse_tokens {p : List JsString} {r : JsString} (hp : ∀ t ∈ p, IsToken t)
    (hr : r.head? ≠ some '*'.toNat) :
    RegExp.parse ((p.map convChars).flatten ++ r) = (RegExp.parse r).map (p.map item ++ ·) := by
  induction p with
  | nil => exact Option.map_id'.symm
  | cons t p ih =>
      obtain ⟨ht, hp⟩ := List.forall_mem_cons.mp hp
      have hhead : ((p.map convChars).flatten ++ r).head? ≠ some '*'.toNat := by
        cases p with
        | nil => exact hr
        | cons u p =>
            rw [List.map_cons, List.flatten_cons, List.append_assoc]
            exact head_convChars (hp u List.mem_cons_self)
      rw [List.map_cons, List.flatten_cons, List.append_assoc, parse_convChars ht hhead, ih hp,
        Option.map_map]
      rfl

/-! ## The first and the last token -/

/-- The tokens without a `%` in front and one behind. -/
def inner (p : List JsString) : List JsString :=
  match p with
  | [] => []
  | t :: r =>
      (if t = anyRun then [] else [t])
        ++ (r.dropLast ++ (r.getLast?.toList.filter (· ≠ anyRun)))

theorem inner_single (t : JsString) : inner [t] = if t = anyRun then [] else [t] :=
  List.append_nil _

theorem inner_ends (t u : JsString) (m : List JsString) :
    inner (t :: (m ++ [u]))
      = (if t = anyRun then [] else [t]) ++ (m ++ if u = anyRun then [] else [u]) := by
  rw [inner, List.dropLast_concat, List.getLast?_concat]
  by_cases hu : u = anyRun
  · rw [if_pos hu, hu]
    rfl
  · rw [if_neg hu, Option.toList_some, List.filter_singleton, decide_eq_true hu]
    rfl

/-- One token, or a first and a last one. -/
theorem ends_cases {motive : List JsString → Prop} (p : List JsString) (nil : motive [])
    (single : ∀ t, motive [t]) (ends : ∀ t m u, motive (t :: (m ++ [u]))) : motive p := by
  cases p with
  | nil => exact nil
  | cons t r =>
      rcases List.eq_nil_or_concat r with rfl | ⟨m, u, rfl⟩
      · exact single t
      · rw [List.concat_eq_append]
        exact ends t m u

theorem inner_subset (p : List JsString) : inner p ⊆ p := by
  intro w hw
  cases p using ends_cases with
  | nil => exact hw
  | single t =>
      rw [inner_single] at hw
      split_ifs at hw
      · exact absurd hw List.not_mem_nil
      · exact hw
  | ends t m u =>
      rw [inner_ends, List.mem_append, List.mem_append] at hw
      rw [List.mem_cons, List.mem_append]
      refine hw.imp (fun hw => ?_) (Or.imp_right fun hw => ?_)
      · split_ifs at hw
        · exact absurd hw List.not_mem_nil
        · exact List.mem_singleton.mp hw
      · split_ifs at hw
        · exact absurd hw List.not_mem_nil
        · exact hw

theorem inner_filter (p : List JsString) :
    (inner p).filter (· ≠ anyRun) = p.filter (· ≠ anyRun) := by
  cases p using ends_cases with
  | nil => rfl
  | single t =>
      rw [inner_single]
      split_ifs with ht
      · rw [ht]
        rfl
      · rfl
  | ends t m u =>
      rw [inner_ends]
      split_ifs with ht hu hu <;> simp [ht, hu]

/-- The printed expression, without its edits of the first and the last element. -/
theorem likePattern_eq {p : List JsString} (hp : ∀ t ∈ p, IsToken t) (hne : p ≠ []) :
    MongoClause.likePattern p = (if p.head? = some anyRun then [] else js "^")
      ++ (((inner p).map convChars).flatten
        ++ if p.getLast? = some anyRun then [] else js "$") := by
  cases p using ends_cases with
  | nil => exact absurd rfl hne
  | single t =>
      have ht := hp t List.mem_cons_self
      rw [inner_single]
      simp only [MongoClause.likePattern, List.map_cons, List.map_nil, List.head?_cons,
        List.getLast?_singleton, List.getLast_singleton, Option.some.injEq, convChars_eq_run ht,
        List.dropLast_singleton]
      by_cases hrun : t = anyRun
      · simp only [hrun, if_true, or_true]
        rfl
      · have hlast : ¬ (js "^" ++ convChars t = js ".*" ∨ js "^" ++ convChars t = []) := by
          rintro (h | h)
          · exact absurd (List.cons.inj h).1 (by decide)
          · exact nomatch h
        simp only [hrun, if_false, hlast, List.map_cons, List.map_nil]
        simp
  | ends t m u =>
      have ht := hp t List.mem_cons_self
      have hu := hp u (List.mem_cons_of_mem _ (List.mem_append_right m (List.mem_singleton_self u)))
      have hlast : (t :: (m ++ [u])).getLast? = some u := by
        rw [← List.cons_append, List.getLast?_concat]
      have hget : ∀ (x : JsString) h, (x :: (m.map convChars ++ [convChars u])).getLast h
          = convChars u := fun x h => @List.getLast_concat _ (convChars u) (x :: m.map convChars)
      have hdrop : ∀ x : JsString, (x :: (m.map convChars ++ [convChars u])).dropLast
          = x :: m.map convChars := fun x => by
        rw [← List.cons_append, List.dropLast_concat]
      rw [inner_ends, hlast]
      simp only [MongoClause.likePattern, List.map_cons, List.map_append, List.map_nil,
        List.head?_cons, Option.some.injEq, convChars_eq_run ht, hget, hdrop,
        convChars_eq_run hu, convChars_ne_nil hu, or_false]
      split_ifs <;> simp

/-- The regular expression of a pattern, as items. -/
theorem parse_likePattern {p : List JsString} (hp : ∀ t ∈ p, IsToken t) (hne : p ≠ []) :
    RegExp.parse (MongoClause.likePattern p) = some (anchored (p.head? ≠ some anyRun)
      (p.getLast? ≠ some anyRun) ((inner p).map item)) := by
  have hinner : ∀ t ∈ inner p, IsToken t := fun t ht => hp t (inner_subset p ht)
  have hstop : RegExp.parse (js "$") = some [.stop] := rfl
  have hstart : ∀ r, RegExp.parse (js "^" ++ r) = (RegExp.parse r).map (.start :: ·) :=
    fun r => parse_start r
  have hend : ∀ b : Prop, [Decidable b] →
      RegExp.parse (((inner p).map convChars).flatten ++ if b then [] else js "$")
        = some ((inner p).map item ++ if b then [] else [.stop]) := by
    intro b _
    by_cases hb : b
    · have hnil : ([] : JsString).head? ≠ some '*'.toNat := fun h => nomatch h
      rw [if_pos hb, if_pos hb, parse_tokens hinner hnil]
      rfl
    · have hdollar : (js "$").head? ≠ some '*'.toNat := by decide
      rw [if_neg hb, if_neg hb, parse_tokens hinner hdollar, hstop]
      rfl
  rw [likePattern_eq hp hne, anchored]
  by_cases hlead : p.head? = some anyRun
  · rw [if_pos hlead, List.nil_append, hend]
    by_cases htrail : p.getLast? = some anyRun <;> simp [hlead, htrail]
  · rw [if_neg hlead, hstart, hend]
    by_cases htrail : p.getLast? = some anyRun <;> simp [hlead, htrail]

theorem likePatternToRegExp_eq {pat : JsString} {esc : Option JsString}
    (hne : parseLikePattern pat esc ≠ []) :
    likePatternToRegExp pat esc = MongoClause.likePattern (parseLikePattern pat esc) := by
  unfold likePatternToRegExp MongoClause.likePattern
  cases hp : (parseLikePattern pat esc).map convChars with
  | nil => exact absurd (List.map_eq_nil_iff.mp hp) hne
  | cons c cs => rfl

/-- The texts of a pattern are those of the inner tokens, with a `%` around them where
the pattern has one. -/
theorem matches_inner {p : List JsString} {s : JsString} :
    Matches p s ↔ ∃ before u after, s = before ++ (u ++ after) ∧ Matches (inner p) u
      ∧ (p.head? ≠ some anyRun → before = []) ∧ (p.getLast? ≠ some anyRun → after = []) := by
  have hrun : ∀ (q : List JsString) (s : JsString),
      Matches (anyRun :: q) s ↔ ∃ before u, s = before ++ u ∧ Matches q u := by
    intro q s
    rw [Matches, List.map_cons, token_run.mpr rfl]
    exact Wildcard.matches_run
  have hback : ∀ (q : List JsString) (u s : JsString),
      Matches (q ++ if u = anyRun then [anyRun] else []) s ↔ ∃ v after, s = v ++ after
        ∧ Matches q v ∧ (u ≠ anyRun → after = []) := by
    intro q u s
    rw [Matches, List.map_append, Wildcard.matches_append]
    refine exists₂_congr fun v after => and_congr_right' (and_congr_right' ?_)
    split_ifs with hu
    · exact iff_of_true ((hrun [] after).mpr ⟨after, [], (List.append_nil _).symm, .nil⟩)
        fun h => absurd hu h
    · exact Wildcard.matches_nil.trans ⟨fun h _ => h, fun h => h hu⟩
  have hfront : ∀ (q : List JsString) (t s : JsString),
      Matches ((if t = anyRun then [anyRun] else []) ++ q) s ↔ ∃ before v, s = before ++ v
        ∧ Matches q v ∧ (t ≠ anyRun → before = []) := by
    intro q t s
    split_ifs with ht
    · refine (hrun q s).trans (exists₂_congr fun before v => and_congr_right' ?_)
      exact (and_iff_left fun h => absurd ht h).symm
    · constructor
      · exact fun h => ⟨[], s, rfl, h, fun _ => rfl⟩
      · rintro ⟨before, v, rfl, h, hbefore⟩
        rw [hbefore ht]
        exact h
  have hends : ∀ (q : List JsString) (t u s : JsString),
      Matches ((if t = anyRun then [anyRun] else []) ++ (q ++ if u = anyRun then [anyRun] else [])) s
        ↔ ∃ before v after, s = before ++ (v ++ after) ∧ Matches q v
          ∧ (t ≠ anyRun → before = []) ∧ (u ≠ anyRun → after = []) := by
    intro q t u s
    constructor
    · intro h
      obtain ⟨before, w, rfl, h, hbefore⟩ := (hfront _ t s).mp h
      obtain ⟨v, after, rfl, h, hafter⟩ := (hback q u w).mp h
      exact ⟨before, v, after, rfl, h, hbefore, hafter⟩
    · rintro ⟨before, v, after, rfl, h, hbefore, hafter⟩
      exact (hfront _ t _).mpr ⟨before, v ++ after, rfl,
        (hback q u _).mpr ⟨v, after, rfl, h, hafter⟩, hbefore⟩
  cases p using ends_cases with
  | nil =>
      constructor
      · exact fun h => ⟨[], s, [], (List.append_nil s).symm, h, fun _ => rfl, fun _ => rfl⟩
      · rintro ⟨before, u, after, rfl, h, hbefore, hafter⟩
        rw [hbefore (fun h => nomatch h), hafter (fun h => nomatch h), List.append_nil]
        exact h
  | single t =>
      by_cases ht : t = anyRun
      · subst ht
        refine iff_of_true ((hrun [] s).mpr ⟨s, [], (List.append_nil s).symm, .nil⟩)
          ⟨s, [], [], (List.append_nil s).symm, .nil, fun h => absurd rfl h, fun h => absurd rfl h⟩
      · have h := hends [t] t t s
        rw [if_neg ht, List.nil_append, List.append_nil] at h
        rw [inner_single, if_neg ht, h, List.head?_cons, List.getLast?_singleton]
        simp only [ne_eq, Option.some.injEq]
  | ends t m u =>
      have hlast : (t :: (m ++ [u])).getLast? = some u := by
        rw [← List.cons_append, List.getLast?_concat]
      have hsplit : t :: (m ++ [u]) = (if t = anyRun then [anyRun] else [])
          ++ (inner (t :: (m ++ [u])) ++ if u = anyRun then [anyRun] else []) := by
        rw [inner_ends]
        split_ifs with ht hu hu <;> simp [ht, hu]
      have h := hends (inner (t :: (m ++ [u]))) t u s
      rw [← hsplit] at h
      rw [h, hlast, List.head?_cons]
      simp only [ne_eq, Option.some.injEq]

/-! ## Tokens that stand for themselves -/

/-- Neither a backslash nor a `_`, and `%` only as the first or the last token. -/
structure Plain (p : List JsString) : Prop where
  backslash : js "\\" ∉ p
  one : anyOne ∉ p
  run : anyRun ∉ p.tail.dropLast

/-- A unit of a text for a token, where `_` takes a newline. -/
def sampleUnit (t : JsString) : Nat := if t = anyOne then '\n'.toNat else t.headD 0

/-- A text of a pattern, the shortest one. -/
def sample (p : List JsString) : JsString := (p.filter (· ≠ anyRun)).map sampleUnit

theorem sample_append (p q : List JsString) : sample (p ++ q) = sample p ++ sample q := by
  rw [sample, List.filter_append, List.map_append]
  rfl

theorem sample_run (p : List JsString) : sample (anyRun :: p) = sample p := by
  simp [sample]

theorem sample_cons {t : JsString} (ht : t ≠ anyRun) (p : List JsString) :
    sample (t :: p) = sampleUnit t :: sample p := by
  simp [sample, ht]

theorem matches_sample (p : List JsString) : Matches p (sample p) := by
  induction p with
  | nil => exact .nil
  | cons t p ih =>
      by_cases hrun : t = anyRun
      · subst hrun
        rw [sample_run, Matches, List.map_cons, token_run.mpr rfl]
        exact .skip ih
      · rw [sample_cons hrun, sampleUnit, Matches, List.map_cons]
        by_cases hone : t = anyOne
        · rw [if_pos hone, token_one.mpr hone]
          exact .one ih
        · rw [if_neg hone, token, if_neg hrun, if_neg hone]
          exact .unit ih

theorem item_many {t : JsString} : item t = .many ↔ t = anyRun := by
  unfold item
  split_ifs with h1 h2 h3
  · exact ⟨fun _ => h1, fun _ => rfl⟩
  · exact ⟨(fun h => nomatch h), fun h => absurd h h1⟩
  · exact ⟨(fun h => nomatch h), fun h => absurd h h1⟩
  · exact ⟨(fun h => nomatch h), fun h => absurd h h1⟩

theorem filter_items (p : List JsString) :
    ((inner p).map item).filter (· ≠ .many) = (p.filter (· ≠ anyRun)).map item := by
  rw [List.filter_map, ← inner_filter p]
  congr 2
  funext t
  exact decide_eq_decide.mpr (not_congr item_many)

/-- Without backslashes and `_` the items are the units of the sample. -/
theorem items_sample {p : List JsString} (hbackslash : js "\\" ∉ p) (hone : anyOne ∉ p) :
    ((inner p).map item).filter (· ≠ .many) = (sample p).map .unit := by
  rw [filter_items, sample, List.map_map]
  refine List.map_congr_left fun t ht => ?_
  obtain ⟨ht, hrun⟩ := List.mem_filter.mp ht
  have hne : t ≠ anyOne := fun heq => hone (heq ▸ ht)
  have hne' : t ≠ js "\\" := fun heq => hbackslash (heq ▸ ht)
  rw [item, if_neg (of_decide_eq_true hrun), if_neg hne, if_neg hne', Function.comp_apply,
    sampleUnit, if_neg hne]

theorem Plain.inner {p : List JsString} (h : Plain p) : anyRun ∉ inner p := by
  cases p using ends_cases with
  | nil => exact List.not_mem_nil
  | single t =>
      rw [inner_single]
      split_ifs with ht
      · exact List.not_mem_nil
      · exact fun hmem => ht (List.mem_singleton.mp hmem).symm
  | ends t m u =>
      have hm := h.run
      rw [List.tail_cons, List.dropLast_concat] at hm
      rw [inner_ends, List.mem_append, List.mem_append]
      rintro (hmem | hmem | hmem)
      · split_ifs at hmem with ht
        · exact absurd hmem List.not_mem_nil
        · exact ht (List.mem_singleton.mp hmem).symm
      · exact hm hmem
      · split_ifs at hmem with hu
        · exact absurd hmem List.not_mem_nil
        · exact hu (List.mem_singleton.mp hmem).symm

theorem Plain.items {p : List JsString} (h : Plain p) :
    (Like.inner p).map item = (sample p).map .unit := by
  rw [← items_sample h.backslash h.one, List.filter_eq_self.mpr]
  intro i hi
  obtain ⟨t, ht, rfl⟩ := List.mem_map.mp hi
  exact decide_eq_true fun heq => h.inner (item_many.mp heq ▸ ht)

/-- What is inside a plain pattern matches its sample only. -/
theorem Plain.matches_inner {p : List JsString} (h : Plain p) {u : JsString} :
    Matches (Like.inner p) u ↔ u = sample p := by
  have htokens : (Like.inner p).map token = (sample p).map .unit := by
    rw [sample, ← inner_filter, List.filter_eq_self.mpr, List.map_map]
    · refine List.map_congr_left fun t ht => ?_
      have hrun : t ≠ anyRun := fun heq => h.inner (heq ▸ ht)
      have hone : t ≠ anyOne := fun heq => h.one (heq ▸ inner_subset p ht)
      rw [token, if_neg hrun, if_neg hone, Function.comp_apply, sampleUnit, if_neg hone]
    · exact fun t ht => decide_eq_true fun heq => h.inner (heq ▸ ht)
  rw [Matches, htokens]
  exact Wildcard.matches_units (sample p)

/-! ## What the expressions find -/

theorem finds_likePattern {D : Dialect Nat} {p : List JsString} {s : JsString}
    (hp : ∀ t ∈ p, IsToken t) (hne : p ≠ []) :
    Finds D (MongoClause.likePattern p) s ↔ ∃ before u after, s = before ++ (u ++ after)
      ∧ Takes D ((inner p).map item) u ∧ (p.head? ≠ some anyRun → before = [])
      ∧ (p.getLast? ≠ some anyRun → D.atEnd after) := by
  have hbody : ∀ i ∈ (inner p).map item, ¬ Anchor i := by
    intro i hi
    obtain ⟨t, -, rfl⟩ := List.mem_map.mp hi
    unfold item
    split_ifs <;> exact fun h => h.elim (fun h => nomatch h) (fun h => nomatch h)
  rw [finds_iff (parse_likePattern hp hne), test_anchored hbody]
  simp only [decide_eq_true_eq]

theorem javascript_dot (x : JsString) (h : javascript.dot x) : ∃ b, x = [b] :=
  have ⟨b, hb, _⟩ := h
  ⟨b, hb⟩

/-- A text of the length of the sample is taken unit by unit. -/
theorem takes_sample {p : List JsString} {u : JsString}
    (h : Takes javascript ((inner p).map item) u) : ∃ v, v.Sublist u
      ∧ List.Forall₂ (Item.Accepts javascript) ((p.filter (· ≠ anyRun)).map item) v := by
  obtain ⟨v, hv, hsub⟩ := takes_sublist javascript_dot h
  rw [filter_items] at hv
  exact ⟨v, hsub, hv⟩

/-- The sample has a newline for a `_`, and a backslash for a backslash. -/
theorem literal_of_finds {p : List JsString} (hp : ∀ t ∈ p, IsToken t) (hne : p ≠ [])
    (h : Finds javascript (MongoClause.likePattern p) (sample p)) :
    js "\\" ∉ p ∧ anyOne ∉ p := by
  obtain ⟨before, u, after, hsplit, htakes, -, -⟩ := (finds_likePattern hp hne).mp h
  obtain ⟨v, hsub, hv⟩ := takes_sample htakes
  have hvs : v = sample p := by
    have hlen : v.length = (sample p).length := by
      rw [← hv.length_eq, sample, List.length_map, List.length_map]
    refine List.Sublist.eq_of_length ?_ hlen
    rw [hsplit]
    exact (hsub.trans (List.sublist_append_left ..)).trans (List.sublist_append_right ..)
  rw [hvs, sample, List.forall₂_map_left_iff, List.forall₂_map_right_iff,
    List.forall₂_same] at hv
  have hmem : ∀ t, t ≠ anyRun → t ∈ p → (item t).Accepts javascript (sampleUnit t) :=
    fun t hrun ht => hv t (List.mem_filter.mpr ⟨ht, decide_eq_true hrun⟩)
  constructor
  · intro ht
    have hslash : '/'.toNat = '\\'.toNat := hmem _ (by decide) ht
    exact absurd hslash (by decide)
  · intro ht
    obtain ⟨c, hc, hterm⟩ : javascript.dot (js "\n") := hmem _ (by decide) ht
    cases hc
    exact hterm (List.mem_cons_self ..)

/-- No `%` follows a `%`. -/
def Separated (p : List JsString) : Prop := p.IsChain fun t u => t = anyRun → u ≠ anyRun

theorem tokens_separated (esc : Option JsString) (run : Bool) (pat : JsString) :
    Separated (tokens esc run pat)
      ∧ (run = true → (tokens esc run pat).head? ≠ some anyRun) := by
  have hcons : ∀ {t : JsString} {p}, t ≠ anyRun → Separated p → Separated (t :: p) :=
    fun ht hp => List.isChain_cons.mpr ⟨fun _ _ heq => absurd heq ht, hp⟩
  fun_induction tokens esc run pat with
  | case1 => exact ⟨.nil, fun _ => by simp⟩
  | case2 run c cs h ih => exact ⟨ih.1, fun _ => ih.2 rfl⟩
  | case3 => exact ⟨.nil, fun _ => by simp⟩
  | case4 run c h1 h2 d cs ih =>
      exact ⟨hcons (unit_ne_run d) ih.1, fun _ h => unit_ne_run d (Option.some.inj h)⟩
  | case5 run cs h1 h2 ih =>
      have hne : anyOne ≠ anyRun := by decide
      exact ⟨hcons hne ih.1, fun _ h => hne (Option.some.inj h)⟩
  | case6 run cs h1 h2 h3 ih =>
      refine ⟨List.isChain_cons.mpr ⟨fun t ht _ heq => ?_, ih.1⟩, fun hrun => ?_⟩
      · exact ih.2 rfl (heq ▸ ht)
      · exact absurd ⟨hrun, rfl⟩ h1
  | case7 run c cs h1 h2 h3 h4 ih =>
      exact ⟨hcons (unit_ne_run c) ih.1, fun _ h => unit_ne_run c (Option.some.inj h)⟩

theorem parse_separated (pat : JsString) (esc : Option JsString) :
    Separated (parseLikePattern pat esc) := (tokens_separated esc false pat).1

/-- A line terminator other than two given units. -/
theorem exists_terminator (x y : Option Nat) :
    ∃ w, LineTerminator w ∧ x ≠ some w ∧ y ≠ some w := by
  by_contra hnone
  have h : ∀ w, LineTerminator w → x = some w ∨ y = some w := by
    intro w hw
    by_contra hw'
    obtain ⟨hx, hy⟩ := not_or.mp hw'
    exact hnone ⟨w, hw, hx, hy⟩
  have h1 := h 10 (by simp [LineTerminator])
  have h2 := h 13 (by simp [LineTerminator])
  have h3 := h 0x2028 (by simp [LineTerminator])
  grind

theorem sample_ne_nil {p : List JsString} {t : JsString} (ht : t ∈ p) (hrun : t ≠ anyRun) :
    sample p ≠ [] :=
  List.ne_nil_of_mem (List.mem_map.mpr ⟨t, List.mem_filter.mpr ⟨ht, decide_eq_true hrun⟩, rfl⟩)

/-- The tokens around a `%` that is neither the first nor the last have units. -/
theorem split_run {p : List JsString} (hsep : Separated p) (hmem : anyRun ∈ p.tail.dropLast) :
    ∃ a b, p = a ++ anyRun :: b ∧ sample a ≠ [] ∧ sample b ≠ [] := by
  cases p using ends_cases with
  | nil => exact absurd hmem List.not_mem_nil
  | single t => exact absurd hmem List.not_mem_nil
  | ends t m u =>
      rw [List.tail_cons, List.dropLast_concat] at hmem
      obtain ⟨m, m', rfl⟩ := List.append_of_mem hmem
      have hsplit : t :: (m ++ anyRun :: m' ++ [u]) = (t :: m) ++ anyRun :: (m' ++ [u]) := by simp
      rw [hsplit] at hsep
      obtain ⟨-, hback, hfront⟩ := List.isChain_append.mp hsep
      obtain ⟨hback, -⟩ := List.isChain_cons.mp hback
      refine ⟨t :: m, m' ++ [u], hsplit, ?_, ?_⟩
      · have hx := List.getLast?_eq_some_getLast (List.cons_ne_nil t m)
        exact sample_ne_nil (List.getLast_mem (List.cons_ne_nil t m))
          fun heq => hfront _ hx _ rfl heq rfl
      · have hne : m' ++ [u] ≠ [] := by simp
        exact sample_ne_nil (List.head_mem hne)
          fun heq => hback _ (List.head?_eq_some_head hne) rfl heq

/-- A unit that is taken out at an end stands at this end. -/
theorem unit_moved {a b before u after : JsString} {w : Nat}
    (hsplit : a ++ w :: b = before ++ (u ++ after)) (hcount : u.count w = (a ++ b).count w)
    (hsub : (a ++ b).Sublist u) (ha : a ≠ []) (hb : b ≠ []) :
    a.head? = some w ∨ b.getLast? = some w := by
  have hlen := congrArg List.length hsplit
  have hcounts := congrArg (List.count w) hsplit
  have hle := hsub.length_le
  have hone : after.count w ≤ after.length := List.count_le_length
  simp only [List.length_append, List.length_cons, List.count_append, List.count_cons_self]
    at hlen hcounts hle hcount
  cases before with
  | nil =>
      rw [List.length_nil] at hlen
      rw [List.count_nil] at hcounts
      right
      obtain ⟨x, rfl⟩ : ∃ x, after = [x] := List.length_eq_one_iff.mp (by omega)
      obtain rfl : x = w := List.mem_singleton.mp (List.count_pos_iff.mp (by omega)) |>.symm
      have hu : a ++ b = u := hsub.eq_of_length (by simp at *; omega)
      rw [← hu, List.nil_append, List.append_assoc] at hsplit
      have htail := congrArg List.getLast? (List.append_cancel_left hsplit)
      rwa [List.getLast?_concat, List.getLast?_cons_of_ne_nil hb] at htail
  | cons x before =>
      have hx : List.count w (x :: before) ≤ (x :: before).length := List.count_le_length
      rw [List.length_cons] at hlen hx
      left
      obtain rfl : before = [] := List.eq_nil_of_length_eq_zero (by omega)
      obtain rfl : x = w := List.mem_singleton.mp (List.count_pos_iff.mp (by omega)) |>.symm
      have hhead := congrArg List.head? hsplit
      rwa [List.head?_append_of_ne_nil _ ha] at hhead

/-- A `%` between other tokens misses the texts with a line terminator there. -/
theorem run_of_finds {p : List JsString} (hp : ∀ t ∈ p, IsToken t) (hsep : Separated p)
    (hbackslash : js "\\" ∉ p) (hone : anyOne ∉ p)
    (h : ∀ s, Matches p s → Finds javascript (MongoClause.likePattern p) s) :
    anyRun ∉ p.tail.dropLast := by
  intro hmem
  obtain ⟨a, b, rfl, ha, hb⟩ := split_run hsep hmem
  obtain ⟨w, hw, hhead, hlast⟩ := exists_terminator (sample a).head? (sample b).getLast?
  have hsample : sample (a ++ anyRun :: b) = sample a ++ sample b := by
    rw [sample_append, sample_run]
  -- the line terminator stands where the `%` is
  have hmatch : Matches (a ++ anyRun :: b) (sample a ++ w :: sample b) := by
    rw [Matches, List.map_append, List.map_cons, token_run.mpr rfl]
    exact (matches_sample a).append (.take (.skip (matches_sample b)))
  obtain ⟨before, u, after, hsplit, htakes, -, -⟩ :=
    (finds_likePattern hp (by simp)).mp (h _ hmatch)
  have hitems := items_sample hbackslash hone
  rw [hsample] at hitems
  have hcount : u.count w = (sample a ++ sample b).count w := by
    have hdot : ∀ x, javascript.dot x → w ∉ x := by
      rintro _ ⟨c, rfl, hc⟩ hmem
      exact hc (List.mem_singleton.mp hmem ▸ hw)
    have hkept := congrArg (List.count (.unit w)) hitems
    rw [List.count_filter rfl, List.count_map_of_injective _ _ (fun _ _ heq => Item.unit.inj heq)]
      at hkept
    rw [takes_count hdot htakes, hkept]
  obtain ⟨v, hv, hsub⟩ := takes_sublist javascript_dot htakes
  rw [hitems, List.forall₂_map_left_iff] at hv
  have hv : sample a ++ sample b = v := List.forall₂_eq_eq_eq ▸ hv
  exact (unit_moved hsplit hcount (hv ▸ hsub) ha hb).elim hhead hlast

/-- A plain pattern is found as what it matches, up to what the dialect has for an end. -/
theorem Plain.finds {D : Dialect Nat} {p : List JsString} {s : JsString} (h : Plain p)
    (hp : ∀ t ∈ p, IsToken t) (hne : p ≠ []) :
    Finds D (MongoClause.likePattern p) s ↔ ∃ before after, s = before ++ (sample p ++ after)
      ∧ (p.head? ≠ some anyRun → before = []) ∧ (p.getLast? ≠ some anyRun → D.atEnd after) := by
  rw [finds_likePattern hp hne]
  simp only [h.items, takes_units]
  constructor
  · rintro ⟨before, _, after, hs, rfl, hbefore, hafter⟩
    exact ⟨before, after, hs, hbefore, hafter⟩
  · rintro ⟨before, after, hs, hbefore, hafter⟩
    exact ⟨before, _, after, hs, rfl, hbefore, hafter⟩

theorem Plain.matches_iff {p : List JsString} {s : JsString} (h : Plain p) :
    Matches p s ↔ ∃ before after, s = before ++ (sample p ++ after)
      ∧ (p.head? ≠ some anyRun → before = []) ∧ (p.getLast? ≠ some anyRun → after = []) := by
  rw [Like.matches_inner]
  simp only [h.matches_inner]
  constructor
  · rintro ⟨before, _, after, hs, rfl, hbefore, hafter⟩
    exact ⟨before, after, hs, hbefore, hafter⟩
  · rintro ⟨before, after, hs, hbefore, hafter⟩
    exact ⟨before, _, after, hs, rfl, hbefore, hafter⟩

/-- In memory a pattern means its tokens exactly if it is plain. -/
theorem likePatternToRegExp_iff (pat : JsString) (esc : Option JsString) :
    (∀ s, Finds javascript (likePatternToRegExp pat esc) s ↔ Matches (parseLikePattern pat esc) s)
      ↔ Plain (parseLikePattern pat esc) := by
  have hp := parse_isToken pat esc
  by_cases hne : parseLikePattern pat esc = []
  · have hsource : likePatternToRegExp pat esc = js "^$" := by
      rw [likePatternToRegExp, hne]
      rfl
    have hitems : RegExp.parse (js "^$") = some (anchored true true []) := rfl
    refine iff_of_true (fun s => ?_) ?_
    · have hempty : Matches [] s ↔ s = [] := Wildcard.matches_nil
      rw [hsource, finds_iff hitems, test_anchored (fun _ h => absurd h List.not_mem_nil), hne,
        hempty]
      constructor
      · rintro ⟨before, u, after, rfl, rfl, hbefore, hafter⟩
        rw [hbefore rfl, (hafter rfl : after = [])]
        rfl
      · rintro rfl
        exact ⟨[], [], [], rfl, rfl, fun _ => rfl, fun _ => rfl⟩
    · rw [hne]
      exact ⟨List.not_mem_nil, List.not_mem_nil, List.not_mem_nil⟩
  · rw [likePatternToRegExp_eq hne]
    constructor
    · intro h
      obtain ⟨hbackslash, hone⟩ := literal_of_finds hp hne ((h _).mpr (matches_sample _))
      exact ⟨hbackslash, hone, run_of_finds hp (parse_separated pat esc) hbackslash hone
        fun s hs => (h s).mpr hs⟩
    · exact fun h s => (h.finds hp hne).trans h.matches_iff.symm

/-! ## Texts in one line -/

/-- A text without line terminators is taken as the tokens match it. -/
theorem takes_iff_matches {p : List JsString} {u : JsString} (hp : ∀ t ∈ p, IsToken t)
    (hbackslash : js "\\" ∉ p) (hu : ∀ c ∈ u, ¬ LineTerminator c) :
    Takes javascript (p.map item) u ↔ Matches p u := by
  induction p generalizing u with
  | nil => exact Wildcard.matches_nil.symm
  | cons t p ih =>
      obtain ⟨ht, hp⟩ := List.forall_mem_cons.mp hp
      rw [List.mem_cons, not_or] at hbackslash
      have hrest : ∀ {v w : JsString}, u = v ++ w → (Takes javascript (p.map item) w ↔ Matches p w) :=
        fun heq => ih hp hbackslash.2 fun c hc => hu c (heq ▸ List.mem_append_right _ hc)
      rw [List.map_cons, Matches, List.map_cons]
      rcases ht with rfl | rfl | ⟨c, rfl⟩
      · rw [item_many.mpr rfl, token_run.mpr rfl, Wildcard.matches_run]
        constructor
        · rintro ⟨us, w, -, heq, hw⟩
          exact ⟨us.flatten, w, heq, (hrest heq).mp hw⟩
        · rintro ⟨v, w, heq, hw⟩
          have hflat : (v.map fun c => [c]).flatten = v := by
            rw [← List.flatMap_def]
            exact List.flatMap_singleton' v
          refine ⟨v.map fun c => [c], w, ?_, by rw [hflat, heq], (hrest heq).mpr hw⟩
          intro x hx
          obtain ⟨c, hc, rfl⟩ := List.mem_map.mp hx
          exact ⟨c, rfl, hu c (heq ▸ List.mem_append_left _ hc)⟩
      · have hitem : item anyOne = .any := rfl
        have hone : Wildcard.Token.one ≠ (.run : Wildcard.Token Nat) := by simp
        rw [hitem, token_one.mpr rfl, Wildcard.matches_cons hone]
        constructor
        · rintro ⟨x, w, ⟨c, rfl, -⟩, rfl, hw⟩
          exact ⟨c, w, rfl, trivial, (@hrest [c] w rfl).mp hw⟩
        · rintro ⟨c, w, rfl, -, hw⟩
          exact ⟨[c], w, ⟨c, rfl, hu c List.mem_cons_self⟩, rfl, (@hrest [c] w rfl).mpr hw⟩
      · have hitem : item [c] = .unit c := item_unit (Ne.symm hbackslash.1)
        have htoken : token [c] = .unit c := by
          rw [token, if_neg (unit_ne_run c), if_neg (unit_ne_one c)]
          rfl
        have hunit : Wildcard.Token.unit c ≠ .run := by simp
        rw [hitem, htoken, Wildcard.matches_cons hunit]
        constructor
        · rintro ⟨w, rfl, hw⟩
          exact ⟨c, w, rfl, rfl, (@hrest [c] w rfl).mp hw⟩
        · rintro ⟨b, w, rfl, rfl, hw⟩
          exact ⟨w, rfl, (@hrest [_] w rfl).mpr hw⟩

/-- Such a text is found by the expression of a pattern without backslashes just if
its tokens match it. -/
theorem test_likePattern {pat : JsString} {esc : Option JsString} {s : JsString}
    (hbackslash : js "\\" ∉ parseLikePattern pat esc) (hs : ∀ c ∈ s, ¬ LineTerminator c) :
    ∃ items, RegExp.parse (likePatternToRegExp pat esc) = some items
      ∧ (Test javascript items s ↔ Matches (parseLikePattern pat esc) s) := by
  have hp := parse_isToken pat esc
  by_cases hne : parseLikePattern pat esc = []
  · have hplain : Plain (parseLikePattern pat esc) := by
      rw [hne]
      exact ⟨List.not_mem_nil, List.not_mem_nil, List.not_mem_nil⟩
    have hsource : likePatternToRegExp pat esc = js "^$" := by
      rw [likePatternToRegExp, hne]
      rfl
    have hfinds := (likePatternToRegExp_iff pat esc).mpr hplain s
    have hparse : RegExp.parse (likePatternToRegExp pat esc) = some [.start, .stop] := by
      rw [hsource]
      rfl
    exact ⟨_, hparse, (finds_iff hparse).symm.trans hfinds⟩
  · have hparse := parse_likePattern hp hne
    rw [← likePatternToRegExp_eq hne] at hparse
    refine ⟨_, hparse, ?_⟩
    rw [← finds_iff hparse, likePatternToRegExp_eq hne, finds_likePattern hp hne, matches_inner]
    refine exists₃_congr fun before u after => and_congr_right fun heq => ?_
    refine and_congr_left fun _ => takes_iff_matches (fun t ht => hp t (inner_subset _ ht))
      (fun h => hbackslash (inner_subset _ h)) fun c hc => hs c ?_
    rw [heq]
    exact List.mem_append_right _ (List.mem_append_left _ hc)

/-! ## In the database -/

/-- A final newline makes no difference: the pattern ends in `%`, or it is a `%` and
newlines. -/
def Ends (p : List JsString) : Prop :=
  p.getLast? = some anyRun
    ∨ p.head? = some anyRun ∧ p.tail ≠ [] ∧ ∀ t ∈ p.tail, t = js "\n"

/-- What the condition of a case-sensitive clause finds. -/
def queryFinds (dot : JsString → Prop) (path pat : JsString) (esc : Option JsString)
    (s : JsString) : Prop :=
  ∃ source, (MongoClause.like path (parseLikePattern pat esc) true).toQuery true
      = .ok [.op .regularExpression (.regularExpression (js "s") source)]
    ∧ Finds (pcre dot) source s

theorem queryFinds_iff {dot : JsString → Prop} {path pat : JsString} {esc : Option JsString}
    {s : JsString} : queryFinds dot path pat esc s
      ↔ Finds (pcre dot) (MongoClause.likePattern (parseLikePattern pat esc)) s := by
  have hquery : (MongoClause.like path (parseLikePattern pat esc) true).toQuery true
      = .ok [.op .regularExpression (.regularExpression (js "s")
        (MongoClause.likePattern (parseLikePattern pat esc)))] := rfl
  constructor
  · rintro ⟨source, hsource, h⟩
    cases hquery.symm.trans hsource
    exact h
  · exact fun h => ⟨_, hquery, h⟩

/-- A text that goes on with the unit in front of it is all this unit. -/
theorem eq_of_rotate {x c : Nat} {v : JsString} (h : v ++ [c] = x :: v) :
    x = c ∧ ∀ y ∈ v, y = c := by
  induction v generalizing x with
  | nil => exact ⟨(List.cons.inj h).1.symm, fun _ hy => absurd hy List.not_mem_nil⟩
  | cons y v ih =>
      obtain ⟨heq, h⟩ := List.cons.inj h
      obtain ⟨hy, hv⟩ := ih h
      exact ⟨heq.symm.trans hy, List.forall_mem_cons.mpr ⟨hy, hv⟩⟩

theorem ends_of_finds {dot : JsString → Prop} {p : List JsString} (hplain : Plain p)
    (hp : ∀ t ∈ p, IsToken t) (hne : p ≠ [])
    (h : ∀ s, Finds (pcre dot) (MongoClause.likePattern p) s → Matches p s) : Ends p := by
  by_cases htrail : p.getLast? = some anyRun
  · exact Or.inl htrail
  have hfind : Finds (pcre dot) (MongoClause.likePattern p) (sample p ++ js "\n") :=
    (hplain.finds hp hne).mpr ⟨[], _, rfl, fun _ => rfl, fun _ => Or.inr rfl⟩
  obtain ⟨before, after, hs, hbefore, hafter⟩ := hplain.matches_iff.mp (h _ hfind)
  rw [hafter htrail, List.append_nil] at hs
  have hlen := congrArg List.length hs
  rw [List.length_append, List.length_append] at hlen
  obtain ⟨x, rfl⟩ : ∃ x, before = [x] := List.length_eq_one_iff.mp (by
    have hone : (js "\n").length = 1 := rfl
    omega)
  have hlead : p.head? = some anyRun := by
    by_contra hlead
    exact absurd (hbefore hlead) (List.cons_ne_nil _ _)
  obtain ⟨-, hnewline⟩ := eq_of_rotate hs
  cases p with
  | nil => exact absurd rfl hne
  | cons t r =>
      cases Option.some.inj hlead
      refine Or.inr ⟨rfl, ?_, fun t ht => ?_⟩
      · rintro rfl
        exact htrail rfl
      · have ht : t ∈ r := ht
        have hrun : t ≠ anyRun := by
          rintro rfl
          rcases List.eq_nil_or_concat r with rfl | ⟨m, u, rfl⟩
          · exact absurd ht List.not_mem_nil
          · rw [List.concat_eq_append] at ht htrail
            have hm := hplain.run
            rw [List.tail_cons, List.concat_eq_append, List.dropLast_concat] at hm
            rw [← List.cons_append, List.getLast?_concat] at htrail
            rcases List.mem_append.mp ht with ht | ht
            · exact hm ht
            · exact htrail (congrArg some (List.mem_singleton.mp ht).symm)
        have hone : t ≠ anyOne := fun heq => hplain.one (heq ▸ List.mem_cons_of_mem _ ht)
        rw [sample_run] at hnewline
        have hunit := hnewline (sampleUnit t) (List.mem_map.mpr
          ⟨t, List.mem_filter.mpr ⟨ht, decide_eq_true hrun⟩, rfl⟩)
        obtain ⟨c, rfl⟩ := ((hp t (List.mem_cons_of_mem _ ht)).resolve_left hrun).resolve_left hone
        rw [sampleUnit, if_neg hone] at hunit
        exact congrArg (fun c => [c]) hunit

theorem finds_of_ends {dot : JsString → Prop} {p : List JsString} {s : JsString}
    (hplain : Plain p) (hends : Ends p) (hp : ∀ t ∈ p, IsToken t) (hne : p ≠ []) :
    Finds (pcre dot) (MongoClause.likePattern p) s ↔ Matches p s := by
  rw [hplain.finds hp hne, hplain.matches_iff]
  rcases hends with htrail | ⟨hlead, htail, hnewline⟩
  · refine exists₂_congr fun before after => and_congr_right' (and_congr_right' ?_)
    exact iff_of_true (fun h => absurd htrail h) (fun h => absurd htrail h)
  · constructor
    · rintro ⟨before, after, rfl, -, hafter⟩
      by_cases htrail : p.getLast? = some anyRun
      · exact ⟨before, after, rfl, fun h => absurd hlead h, fun h => absurd htrail h⟩
      · rcases hafter htrail with rfl | rfl
        · exact ⟨before, [], rfl, fun h => absurd hlead h, fun _ => rfl⟩
        · -- the final newline may as well be in front
          have hrotate : sample p ++ js "\n" = js "\n" ++ sample p := by
            have hall : ∀ c ∈ sample p, c = '\n'.toNat := by
              intro c hc
              obtain ⟨t, ht, rfl⟩ := List.mem_map.mp hc
              obtain ⟨ht, hrun⟩ := List.mem_filter.mp ht
              obtain ⟨r, rfl⟩ := List.head?_eq_some_iff.mp hlead
              rcases List.mem_cons.mp ht with heq | ht
              · exact absurd heq (of_decide_eq_true hrun)
              · rw [hnewline t ht]
                rfl
            rw [List.eq_replicate_iff.mpr ⟨rfl, hall⟩]
            exact List.replicate_succ'.symm
          refine ⟨before ++ js "\n", [], ?_, fun h => absurd hlead h, fun _ => rfl⟩
          rw [hrotate, List.append_nil, List.append_assoc]
    · rintro ⟨before, after, rfl, -, hafter⟩
      exact ⟨before, after, rfl, fun h => absurd hlead h, fun h => Or.inl (hafter h)⟩

/-- The expression of the empty pattern looks for a word. -/
theorem undefined_finds {D : Dialect Nat} : ¬ Finds D (MongoClause.likePattern []) [] := by
  rintro ⟨items, hparse, before, t, hsplit, h⟩
  obtain ⟨rfl, rfl⟩ := List.append_eq_nil_iff.mp hsplit.symm
  have hunit : 'u'.toNat ∉ js "\\.^$*+?()[]|\x7b\x7d" := by decide
  rw [show MongoClause.likePattern [] = '^'.toNat :: 'u'.toNat :: js "ndefined$" from rfl,
    parse_start, parse_unit _ hunit, Option.map_map] at hparse
  obtain ⟨rest, -, rfl⟩ := Option.map_eq_some_iff.mp hparse
  obtain ⟨-, t, ht, -⟩ := h
  cases ht

/-- In memory and in the database a pattern means its tokens exactly if it is plain and a
final newline makes no difference. -/
theorem like_iff (dot : JsString → Prop) (path pat : JsString) (esc : Option JsString) :
    (∀ s, (Finds javascript (likePatternToRegExp pat esc) s ↔ Matches (parseLikePattern pat esc) s)
      ∧ (queryFinds dot path pat esc s ↔ Matches (parseLikePattern pat esc) s))
    ↔ Plain (parseLikePattern pat esc) ∧ Ends (parseLikePattern pat esc) := by
  have hp := parse_isToken pat esc
  constructor
  · intro h
    have hplain := (likePatternToRegExp_iff pat esc).mp fun s => (h s).1
    have hne : parseLikePattern pat esc ≠ [] := by
      intro hnil
      have hfind := (h []).2
      rw [queryFinds_iff, hnil] at hfind
      exact undefined_finds (hfind.mpr .nil)
    exact ⟨hplain, ends_of_finds hplain hp hne fun s hs =>
      (h s).2.mp (queryFinds_iff.mpr hs)⟩
  · rintro ⟨hplain, hends⟩ s
    have hne : parseLikePattern pat esc ≠ [] := by
      intro hnil
      rw [hnil] at hends
      exact hends.elim (fun h => nomatch h) fun h => h.2.1 rfl
    exact ⟨(likePatternToRegExp_iff pat esc).mpr hplain s,
      queryFinds_iff.trans (finds_of_ends hplain hends hp hne)⟩

/-- A backslash is looked for as a slash, and the empty text with the empty pattern not
at all in the database. -/
theorem like_misses :
    (Matches (parseLikePattern (js "\\") none) (js "\\")
      ∧ ¬ Finds javascript (likePatternToRegExp (js "\\") none) (js "\\"))
    ∧ Matches (parseLikePattern [] none) []
    ∧ ¬ queryFinds (fun u => u.length = 1) (js "DeviceID.ID") [] none [] := by
  have htokens : parseLikePattern (js "\\") none = [js "\\"] := by decide
  have hsource : likePatternToRegExp (js "\\") none = js "^\\/$" := by decide
  have hitems : RegExp.parse (js "^\\/$") = some [.start, .unit '/'.toNat, .stop] := by
    rw [show js "^\\/$" = '^'.toNat :: js "\\/$" from rfl, parse_start]
    decide
  refine ⟨⟨?_, ?_⟩, .nil, fun h => ?_⟩
  · rw [htokens]
    exact matches_sample [js "\\"]
  · rw [hsource, finds_iff hitems]
    rintro ⟨before, t, hs, -, u, rfl, -⟩
    have hslash : '/'.toNat ∈ js "\\" :=
      hs ▸ List.mem_append_right before (List.mem_cons_self ..)
    exact absurd hslash (by decide)
  · rw [queryFinds_iff] at h
    exact undefined_finds h

end Like

end GenieAcs
