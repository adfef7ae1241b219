import Mathlib
import GenieAcs.JsNumbers
import GenieAcs.PaginationOrder

/-!
# Bookmarks

The UI sorts rows by `compareFunction` and remembers the last row of a page as
a bookmark, from which `bookmarkToExpression` makes the filter of the rows up
to it. The filter goes by the order of `evaluate`: null, then numbers with the
booleans among them, then strings. `compareFunction` goes by JavaScript's `<`
and `>`, which turn whatever is not two strings into numbers.
-/

namespace GenieAcs

/-! ## Rows -/

/-- What a row has under a name: a value of its own, or an object that may
have a `value`, of which the first element counts. -/
inductive Cell
  | undefined
  | null
  | val (v : Value)
  | object (value : Option (Option Value))

/-- A cell with the object taken off. -/
inductive Field
  | undefined
  | null
  | val (v : Value)
  deriving DecidableEq

def Field.value : Field → Option Value
  | .val v => some v
  | _ => none

def Cell.field : Cell → Field
  | .undefined => .undefined
  | .null => .null
  | .val v => .val v
  | .object (some (some v)) => .val v
  | .object _ => .null

/-- What `evaluate` finds under the names. -/
def lookupOf (row : JsString → Cell) : Lookup := fun param => (row param).field.value

/-! ## Bookmarks and their expressions -/

/-- The first element of the row's `value`, if it is an object, else the cell. -/
def toBookmark (sort : SortKeys) (row : JsString → Cell) : Lookup := fun param =>
  if param ∈ sort.map (·.1) then (row param).field.value else none

/-- One step of the `reduce`. -/
def bookmarkStep (bookmark : Lookup) (cur : Expr) (kv : JsString × ℤ) : Expr :=
  let param := Expr.ofParam kv.1
  if kv.2 < 0 then
    match bookmark kv.1 with
    | none => Expr.or (.app .isNotNull [param]) (Expr.and (.app .isNull [param]) cur)
    | some v =>
        let f := Expr.or Expr.null (.app .gt [param, .lit (some v)])
        Expr.or f (Expr.and (.app .eq [param, .lit (some v)]) cur)
  else
    match bookmark kv.1 with
    | none => Expr.and (.app .isNull [param]) cur
    | some v =>
        let f := Expr.or (.app .isNull [param]) (.app .lt [param, .lit (some v)])
        Expr.or f (Expr.and (.app .eq [param, .lit (some v)]) cur)

def bookmarkToExpression (bookmark : Lookup) (sort : SortKeys) : Expr :=
  sort.reverse.foldl (bookmarkStep bookmark) (Expr.ofBool true)

/-! ## The order of the sort keys -/

/-- Where `v` is compared with `w` by a key. -/
def keyOrder (asc : ℤ) (v w : Option Value) : Ordering :=
  if asc < 0 then cmp (sortRank w) (sortRank v) else cmp (sortRank v) (sortRank w)

/-- The lexicographic order of the keys, null first in an ascending one. -/
def rowOrder : SortKeys → Lookup → Lookup → Ordering
  | [], _, _ => .eq
  | (param, asc) :: sort, a, b => (keyOrder asc (a param) (b param)).then (rowOrder sort a b)

section

variable {J : Js} {obj : Lookup} {now : Option ℚ}

/-- The current expression of the `reduce`: TRUE or an array, with a truth
value also when it is opened as an AND. -/
structure Opens (J : Js) (obj : Lookup) (now : Option ℚ) (cur : Expr) (t : Option Bool) : Prop where
  shape : cur.isArray = true ∨ cur = Expr.ofBool true
  opened : ∃ ts, List.Forall₂ (Means J obj now) (operandsOf .and cur) ts ∧ Kleene.all ts = t
  means : Means J obj now cur t

theorem Opens.start : Opens J obj now (Expr.ofBool true) (some true) :=
  ⟨.inr rfl, ⟨[some true], .cons (Means.bool true) .nil, rfl⟩, Means.bool true⟩

/-- An array other than an AND before the current expression. -/
theorem and_opens {op : Op} {args : List Expr} {cur : Expr} {t u : Option Bool}
    (hop : op ≠ .and) (he : Means J obj now (.app op args) u) (hcur : Opens J obj now cur t) :
    Expr.and (.app op args) cur = .app .and (.app op args :: operandsOf .and cur)
      ∧ Opens J obj now (Expr.and (.app op args) cur) (Kleene.all [u, t]) := by
  have heq : Expr.and (.app op args) cur = .app .and (.app op args :: operandsOf .and cur) := by
    rcases hcur.shape with harray | rfl
    · cases cur with
      | lit v => cases harray
      | app op' args' =>
          simp [Expr.and, Expr.isFalseLit, Expr.truthy, Expr.isArray, operandsOf, hop]
    · simp [Expr.and, Expr.isFalseLit, Expr.truthy, Expr.isArray, Expr.isApp, Expr.ofBool,
        operandsOf, hop]
  obtain ⟨ts, hts, htrue⟩ := hcur.opened
  have hall : Kleene.all (u :: ts) = Kleene.all [u, t] := by rw [Kleene.all_cons, htrue]
  rw [heq]
  exact ⟨rfl, .inl rfl, ⟨u :: ts, List.Forall₂.cons he hts, hall⟩,
    hall ▸ Means.and (.cons he hts)⟩

/-- An OR is opened as an AND of one. -/
theorem or_opens {es : List Expr} {t : Option Bool} (h : Means J obj now (.app .or es) t) :
    Opens J obj now (.app .or es) t :=
  ⟨.inl rfl, ⟨[t], List.Forall₂.cons h .nil, Kleene.all_singleton t⟩, h⟩

/-- A comparison of a parameter with a value. -/
theorem means_compare {op : Op} (hop : op.IsCompare) (p : JsString) (v : Value) :
    Means J obj now (.app op [.ofParam p, .lit (some v)]) (compareTruth op (obj p) (some v)) :=
  Means.compare hop (Means.evaluate_param p) (evaluate_lit _)

theorem means_isNull (p : JsString) :
    Means J obj now (.app .isNull [.ofParam p]) (some (decide (obj p = none))) :=
  Means.isNull (Means.evaluate_param p)

theorem means_isNotNull (p : JsString) :
    Means J obj now (.app .isNotNull [.ofParam p]) (some (decide (obj p ≠ none))) :=
  Means.isNotNull (Means.evaluate_param p)

/-- The truth value of one step. -/
def stepTruth (asc : ℤ) (v w : Option Value) (t : Option Bool) : Option Bool :=
  if asc < 0 then
    match w with
    | none => Kleene.any [some (decide (v ≠ none)), Kleene.all [some (decide (v = none)), t]]
    | some w => Kleene.any [none, compareTruth .gt v (some w),
        Kleene.all [compareTruth .eq v (some w), t]]
  else
    match w with
    | none => Kleene.all [some (decide (v = none)), t]
    | some w => Kleene.any [some (decide (v = none)), compareTruth .lt v (some w),
        Kleene.all [compareTruth .eq v (some w), t]]

theorem bookmarkStep_opens {bookmark : Lookup} {cur : Expr} {t : Option Bool}
    (hcur : Opens J obj now cur t) (kv : JsString × ℤ) :
    Opens J obj now (bookmarkStep bookmark cur kv)
      (stepTruth kv.2 (obj kv.1) (bookmark kv.1) t) := by
  unfold bookmarkStep stepTruth
  dsimp only
  split_ifs with hdesc
  · cases bookmark kv.1 with
    | none =>
        obtain ⟨heq, hand⟩ := and_opens (by decide) (means_isNull kv.1) hcur
        have hor : Expr.or (.app .isNotNull [.ofParam kv.1])
            (Expr.and (.app .isNull [.ofParam kv.1]) cur)
              = .app .or [.app .isNotNull [.ofParam kv.1],
                  Expr.and (.app .isNull [.ofParam kv.1]) cur] := by
          rw [heq]
          simp [Expr.or, Expr.isArray, operandsOf]
        simp only
        rw [hor]
        exact or_opens (Means.or (.cons (means_isNotNull kv.1) (.cons hand.means .nil)))
    | some w =>
        obtain ⟨heq, hand⟩ := and_opens (by decide) (means_compare Op.IsCompare.eq kv.1 w) hcur
        have hor : Expr.or (Expr.or Expr.null (.app .gt [.ofParam kv.1, .lit (some w)]))
            (Expr.and (.app .eq [.ofParam kv.1, .lit (some w)]) cur)
              = .app .or [Expr.null, .app .gt [.ofParam kv.1, .lit (some w)],
                  Expr.and (.app .eq [.ofParam kv.1, .lit (some w)]) cur] := by
          rw [heq]
          simp [Expr.or, Expr.isArray, Expr.isApp, Expr.null, Expr.truthy, operandsOf]
        simp only
        rw [hor]
        exact or_opens (Means.or (.cons (Means.lit none)
          (.cons (means_compare Op.IsCompare.gt kv.1 w) (.cons hand.means .nil))))
  · cases bookmark kv.1 with
    | none => exact (and_opens (by decide) (means_isNull kv.1) hcur).2
    | some w =>
        obtain ⟨heq, hand⟩ := and_opens (by decide) (means_compare Op.IsCompare.eq kv.1 w) hcur
        have hor : Expr.or (Expr.or (.app .isNull [.ofParam kv.1])
              (.app .lt [.ofParam kv.1, .lit (some w)]))
            (Expr.and (.app .eq [.ofParam kv.1, .lit (some w)]) cur)
              = .app .or [.app .isNull [.ofParam kv.1], .app .lt [.ofParam kv.1, .lit (some w)],
                  Expr.and (.app .eq [.ofParam kv.1, .lit (some w)]) cur] := by
          rw [heq]
          simp [Expr.or, Expr.isArray, operandsOf]
        simp only
        rw [hor]
        exact or_opens (Means.or (.cons (means_isNull kv.1)
          (.cons (means_compare Op.IsCompare.lt kv.1 w) (.cons hand.means .nil))))

/-! ## What a bookmark cuts off -/

theorem sortRank_eq_none {v : Option Value} : sortRank v = sortRank none ↔ v = none := by
  cases v with
  | none => exact iff_of_true rfl rfl
  | some v => exact iff_of_false WithBot.coe_ne_bot (by simp)

theorem none_lt_sortRank {v : Option Value} : sortRank none < sortRank v ↔ v ≠ none := by
  cases v with
  | none => exact iff_of_false (lt_irrefl _) (fun h => h rfl)
  | some v => exact iff_of_true (WithBot.bot_lt_coe _) (by simp)

theorem compareTruth_gt {v : Option Value} {w : Value} :
    compareTruth .gt v (some w) = some true ↔ sortRank (some w) < sortRank v := by
  cases v with
  | none => exact iff_of_false (by simp [compareTruth]) (not_lt_bot)
  | some v =>
      rw [sortRank, sortRank, WithBot.coe_lt_coe, ← Value.compare_eq_gt]
      cases h : v.compare w <;> simp [compareTruth, Op.holds, h]

theorem compareTruth_lt {v : Option Value} {w : Value} :
    compareTruth .lt v (some w) = some true ↔ v ≠ none ∧ sortRank v < sortRank (some w) := by
  cases v with
  | none => simp [compareTruth]
  | some v =>
      rw [sortRank, sortRank, WithBot.coe_lt_coe, ← Value.compare_eq_lt]
      cases h : v.compare w <;> simp [compareTruth, Op.holds, h]

theorem compareTruth_eq {v : Option Value} {w : Value} :
    compareTruth .eq v (some w) = some true ↔ sortRank v = sortRank (some w) := by
  cases v with
  | none => exact iff_of_false (by simp [compareTruth]) WithBot.bot_ne_coe
  | some v =>
      rw [sortRank, sortRank, WithBot.coe_inj, ← Value.compare_eq_eq]
      cases h : v.compare w <;> simp [compareTruth, Op.holds, h]

/-- A step is true before the bookmark by its key, or level with it if what
follows is true. -/
theorem stepTruth_eq_true {asc : ℤ} {v w : Option Value} {t : Option Bool} :
    stepTruth asc v w t = some true
      ↔ keyOrder asc v w = .lt ∨ keyOrder asc v w = .eq ∧ t = some true := by
  unfold stepTruth keyOrder
  split_ifs with hdesc
  · rw [cmp_eq_lt_iff, cmp_eq_eq_iff]
    cases w with
    | none =>
        rw [none_lt_sortRank, @eq_comm _ (sortRank none), sortRank_eq_none]
        simp [Kleene.any_cons_eq_true, Kleene.all_cons_eq_true]
    | some w =>
        rw [@eq_comm _ (sortRank (some w)), ← compareTruth_gt, ← compareTruth_eq]
        simp [Kleene.any_cons_eq_true, Kleene.all_cons_eq_true]
  · rw [cmp_eq_lt_iff, cmp_eq_eq_iff]
    cases w with
    | none =>
        rw [sortRank_eq_none]
        simp [Kleene.all_cons_eq_true, sortRank]
    | some w =>
        rw [← compareTruth_eq]
        have hlt : sortRank v < sortRank (some w)
            ↔ v = none ∨ compareTruth .lt v (some w) = some true := by
          rw [compareTruth_lt]
          cases v with
          | none => exact iff_of_true (WithBot.bot_lt_coe _) (.inl rfl)
          | some v => simp
        rw [hlt]
        simp [Kleene.any_cons_eq_true, Kleene.all_cons_eq_true, or_assoc]

/-- On every row the expression has a truth value, and it is true on those
that do not come after the bookmark. -/
theorem bookmarkToExpression_means (bookmark : Lookup) (sort : SortKeys) :
    ∃ t, Means J obj now (bookmarkToExpression bookmark sort) t
      ∧ (t = some true ↔ rowOrder sort obj bookmark ≠ .gt) := by
  suffices h : ∃ t, Opens J obj now (bookmarkToExpression bookmark sort) t
      ∧ (t = some true ↔ rowOrder sort obj bookmark ≠ .gt) by
    obtain ⟨t, hopens, ht⟩ := h
    exact ⟨t, hopens.means, ht⟩
  unfold bookmarkToExpression
  induction sort with
  | nil => exact ⟨some true, Opens.start, by simp [rowOrder]⟩
  | cons kv sort ih =>
      obtain ⟨t, hopens, ht⟩ := ih
      rw [List.reverse_cons, List.foldl_append]
      refine ⟨_, bookmarkStep_opens hopens kv, ?_⟩
      rw [stepTruth_eq_true, ht, rowOrder]
      cases keyOrder kv.2 (obj kv.1) (bookmark kv.1) <;> simp

end

/-- A bookmark cuts the table at its row. -/
theorem bookmark_cuts (J : Js) (now : Option ℚ) (sort : SortKeys) (bookmark row : Lookup) :
    truthyOn J row now (bookmarkToExpression bookmark sort)
      = .ok (decide (rowOrder sort row bookmark ≠ .gt)) := by
  obtain ⟨t, hmeans, ht⟩ := @bookmarkToExpression_means J row now bookmark sort
  rw [hmeans.truthyOn_eq, decide_eq_decide.mpr ht]

/-! ## `compareFunction` -/

namespace Field

/-- The number a comparison takes a field for; `number` is what it makes of a
string. -/
def toNumber (number : JsString → JsNumber) : Field → JsNumber
  | undefined => none
  | null => .ofRat 0
  | val (.bool b) => .ofRat (boolToNumber b)
  | val (.num q) => .ofRat q
  | val (.str s) => number s

/-- `v > w`. -/
def gt (number : JsString → JsNumber) : Field → Field → Bool
  | val (.str s), val (.str t) => decide (t < s)
  | v, w => JsNumber.gt (v.toNumber number) (w.toNumber number)

/-- The table `w`, and 4 for a type it does not have. -/
def weight : Field → ℤ
  | undefined => 1
  | null => 1
  | val (.num _) => 2
  | val (.str _) => 3
  | val (.bool _) => 4

end Field

def compareFunction (number : JsString → JsNumber) : SortKeys → (a b : JsString → Cell) → ℤ
  | [], _, _ => 0
  | (param, asc) :: sort, a, b =>
      let v1 := (a param).field
      let v2 := (b param).field
      if v1.gt number v2 then asc
      else if v2.gt number v1 then asc * -1
      else if v1 ≠ v2 then max (-1) (min 1 (v1.weight - v2.weight)) * asc
      else compareFunction number sort a b

section

variable {number : JsString → JsNumber} {v w : Field} {a b c : JsString → Cell} {sort : SortKeys}

theorem JsNumber.gt_asymm {x y : JsNumber} (h : JsNumber.gt x y = true) :
    JsNumber.gt y x = false := by
  rcases x with _ | x <;> rcases y with _ | y
  · cases h
  · cases h
  · cases h
  · exact decide_eq_false (not_lt.mpr (of_decide_eq_true h).le)

namespace Field

theorem gt_asymm (h : v.gt number w = true) : w.gt number v = false := by
  unfold gt at h ⊢
  split at h
  · exact decide_eq_false (not_lt.mpr (of_decide_eq_true h).le)
  · rename_i hother
    split
    · exact absurd rfl (hother _ _ rfl)
    · exact JsNumber.gt_asymm h

theorem gt_irrefl : v.gt number v = false := by
  cases h : v.gt number v with
  | false => rfl
  | true => exact h.symm.trans (gt_asymm h)

/-- Where JavaScript puts `v` against another `w`, by the numbers or by the
table. -/
def jsOrder (number : JsString → JsNumber) (v w : Field) : Ordering :=
  if v.gt number w then .gt else if w.gt number v then .lt else cmp v.weight w.weight

/-- Where `evaluate` puts it. -/
def rankOrder (v w : Field) : Ordering := cmp (sortRank v.value) (sortRank w.value)

/-- The first comes before the second for `evaluate`, and after it for
JavaScript: a negative number or a string that reads as one after null, a
string that reads as a smaller number after a number, a string that does not
read as a greater number after a boolean. -/
def Misplaced (number : JsString → JsNumber) : Field → Field → Prop
  | null, val (.num q) => q < 0
  | null, val (.str s) => JsNumber.gt (.ofRat 0) (number s) = true
  | val (.num q), val (.str s) => JsNumber.gt (.ofRat q) (number s) = true
  | val (.bool b), val (.str s) => JsNumber.gt (number s) (.ofRat (boolToNumber b)) = false
  | _, _ => False

theorem jsOrder_swap (v w : Field) : jsOrder number w v = (jsOrder number v w).swap := by
  unfold jsOrder
  cases hvw : v.gt number w with
  | true => simp [gt_asymm hvw]
  | false =>
      cases w.gt number v with
      | true => simp
      | false => simp

theorem rankOrder_swap (v w : Field) : rankOrder w v = (rankOrder v w).swap := by
  unfold rankOrder
  exact (cmp_swap _ _).symm

theorem ofRat_gt (p q : ℚ) : JsNumber.gt (.ofRat p) (.ofRat q) = decide (q < p) := by
  simp [JsNumber.gt, JsNumber.ofRat]

/-- The number of a field that is a number or a boolean. -/
def numeric : Field → Option ℚ
  | val (.bool b) => some (boolToNumber b)
  | val (.num q) => some q
  | _ => none

theorem numeric_toNumber {q : ℚ} (h : v.numeric = some q) : v.toNumber number = .ofRat q := by
  unfold numeric at h
  split at h
  · exact congrArg JsNumber.ofRat (Option.some.inj h)
  · exact congrArg JsNumber.ofRat (Option.some.inj h)
  · cases h

/-- Unless both are strings, the numbers decide. -/
theorem jsOrder_eq (h : v.numeric.isSome = true ∨ v.value = none) :
    jsOrder number v w
      = if JsNumber.gt (v.toNumber number) (w.toNumber number) then .gt
        else if JsNumber.gt (w.toNumber number) (v.toNumber number) then .lt
        else cmp v.weight w.weight := by
  have hstr : ∀ s, v ≠ val (.str s) := by
    rintro s rfl
    rcases h with h | h <;> cases h
  have hgt : v.gt number w = JsNumber.gt (v.toNumber number) (w.toNumber number) := by
    unfold gt
    split
    · exact absurd rfl (hstr _)
    · rfl
  have hlt : w.gt number v = JsNumber.gt (w.toNumber number) (v.toNumber number) := by
    unfold gt
    split
    · exact absurd rfl (hstr _)
    · rfl
  rw [jsOrder, hgt, hlt]

/-- Two numbers, or booleans, that differ as numbers. -/
theorem jsOrder_numeric {p q : ℚ} (hv : v.numeric = some p) (hw : w.numeric = some q)
    (h : p < q) : jsOrder number v w = .lt := by
  rw [jsOrder_eq (.inl (by rw [hv]; rfl)), numeric_toNumber hv, numeric_toNumber hw, ofRat_gt,
    ofRat_gt, decide_eq_false (not_lt.mpr h.le), decide_eq_true h]
  rfl

/-- A field of a smaller weight comes first unless its number is greater. -/
theorem jsOrder_weight (h : v.numeric.isSome = true ∨ v.value = none)
    (hw : v.weight < w.weight) :
    jsOrder number v w
      = if JsNumber.gt (v.toNumber number) (w.toNumber number) then .gt else .lt := by
  rw [jsOrder_eq h, (cmp_eq_lt_iff _ _).mpr hw, ite_self]

theorem one_lt_weight (v : Value) : null.weight < (val v).weight := by
  cases v <;> simp [weight]

/-- If `v` comes first for `evaluate`, it does for JavaScript unless the two
are misplaced. -/
theorem jsOrder_of_lt (h : rankOrder v w = .lt) :
    jsOrder number v w = .lt ∧ ¬ Misplaced number v w
      ∨ jsOrder number v w = .gt ∧ Misplaced number v w := by
  rw [rankOrder, cmp_eq_lt_iff] at h
  cases v with
  | undefined =>
      rcases w with _ | _ | w
      · exact absurd h (lt_irrefl _)
      · exact absurd h (lt_irrefl _)
      · exact .inl ⟨jsOrder_weight (.inr rfl) (one_lt_weight w), id⟩
  | null =>
      rcases w with _ | _ | (b | q | t)
      · exact absurd h (lt_irrefl _)
      · exact absurd h (lt_irrefl _)
      · refine .inl ⟨?_, id⟩
        rw [jsOrder_weight (.inr rfl) (one_lt_weight _)]
        cases b <;> simp [toNumber, ofRat_gt, boolToNumber]
      · rw [jsOrder_weight (.inr rfl) (one_lt_weight _)]
        by_cases hq : q < 0
        · exact .inr ⟨by simp [toNumber, ofRat_gt, hq], hq⟩
        · exact .inl ⟨by simp [toNumber, ofRat_gt, hq], hq⟩
      · rw [jsOrder_weight (.inr rfl) (one_lt_weight _)]
        cases ht : JsNumber.gt (.ofRat 0) (number t) with
        | true => exact .inr ⟨by simp [toNumber, ht], ht⟩
        | false => exact .inl ⟨by simp [toNumber, ht], by simp [Misplaced, ht]⟩
  | val v =>
      rcases w with _ | _ | w
      · exact absurd h not_lt_bot
      · exact absurd h not_lt_bot
      · cases v with
        | str s =>
            cases w with
            | str t =>
                have hst : s < t := Sum.Lex.inr_lt_inr_iff.mp (WithBot.coe_lt_coe.mp h)
                refine .inl ⟨?_, id⟩
                simp [jsOrder, gt, hst, hst.le]
            | bool b => exact absurd (WithBot.coe_lt_coe.mp h) Sum.Lex.not_inr_lt_inl
            | num q => exact absurd (WithBot.coe_lt_coe.mp h) Sum.Lex.not_inr_lt_inl
        | num p =>
            cases w with
            | str t =>
                rw [jsOrder_weight (.inl rfl) (by simp [weight])]
                cases ht : JsNumber.gt (.ofRat p) (number t) with
                | true => exact .inr ⟨by simp [toNumber, ht], ht⟩
                | false => exact .inl ⟨by simp [toNumber, ht], by simp [Misplaced, ht]⟩
            | bool b =>
                have hpb := Sum.Lex.inl_lt_inl_iff.mp (WithBot.coe_lt_coe.mp h)
                exact .inl ⟨jsOrder_numeric rfl rfl hpb, id⟩
            | num q =>
                have hpq := Sum.Lex.inl_lt_inl_iff.mp (WithBot.coe_lt_coe.mp h)
                exact .inl ⟨jsOrder_numeric rfl rfl hpq, id⟩
        | bool b =>
            cases w with
            | str t =>
                rw [jsOrder_eq (.inl rfl)]
                cases ht : JsNumber.gt (number t) (.ofRat (boolToNumber b)) with
                | true =>
                    have hno := JsNumber.gt_asymm ht
                    exact .inl ⟨by simp [toNumber, ht, hno], by simp [Misplaced, ht]⟩
                | false => exact .inr ⟨by simp [toNumber, ht, weight], ht⟩
            | bool b' =>
                have hbb := Sum.Lex.inl_lt_inl_iff.mp (WithBot.coe_lt_coe.mp h)
                exact .inl ⟨jsOrder_numeric rfl rfl hbb, id⟩
            | num q =>
                have hbq := Sum.Lex.inl_lt_inl_iff.mp (WithBot.coe_lt_coe.mp h)
                exact .inl ⟨jsOrder_numeric rfl rfl hbq, id⟩

/-- Fields that are level for `evaluate` are told apart by the table alone. -/
theorem jsOrder_of_eq (h : rankOrder v w = .eq) (hne : v ≠ w) :
    jsOrder number v w = cmp v.weight w.weight := by
  rw [rankOrder, cmp_eq_eq_iff] at h
  have hnumbers : ∀ {p q : ℚ}, v.numeric = some p → w.numeric = some q → p = q →
      jsOrder number v w = cmp v.weight w.weight := by
    rintro p q hv hw rfl
    rw [jsOrder_eq (.inl (by rw [hv]; rfl)), numeric_toNumber hv, numeric_toNumber hw, ofRat_gt,
      decide_eq_false (lt_irrefl p)]
    rfl
  rcases v with _ | _ | v <;> rcases w with _ | _ | w
  · exact absurd rfl hne
  · exact jsOrder_eq (.inr rfl)
  · exact absurd h WithBot.bot_ne_coe
  · exact jsOrder_eq (.inr rfl)
  · exact absurd rfl hne
  · exact absurd h WithBot.bot_ne_coe
  · exact absurd h WithBot.coe_ne_bot
  · exact absurd h WithBot.coe_ne_bot
  · have hrank : v.rank = w.rank := WithBot.coe_injective h
    rcases v with x | x | x <;> rcases w with y | y | y
    · exact hnumbers rfl rfl (Sum.inl_injective hrank)
    · exact hnumbers rfl rfl (Sum.inl_injective hrank)
    · cases hrank
    · exact hnumbers rfl rfl (Sum.inl_injective hrank)
    · exact hnumbers rfl rfl (Sum.inl_injective hrank)
    · cases hrank
    · cases hrank
    · cases hrank
    · exact absurd (congrArg (fun s => val (.str s)) (Sum.inr_injective hrank)) hne

/-- Misplaced fields are in that order for `evaluate`. -/
theorem Misplaced.rankOrder_eq (h : Misplaced number v w) : rankOrder v w = .lt := by
  rw [rankOrder, cmp_eq_lt_iff]
  unfold Misplaced at h
  split at h
  · exact WithBot.bot_lt_coe _
  · exact WithBot.bot_lt_coe _
  · exact WithBot.coe_lt_coe.mpr (Sum.Lex.inl_lt_inr _ _)
  · exact WithBot.coe_lt_coe.mpr (Sum.Lex.inl_lt_inr _ _)
  · exact h.elim

end Field

/-! ## Where the two orders agree -/

/-- The order of a key of direction `asc`. -/
def directed (asc : ℤ) (o : Ordering) : Ordering := if asc < 0 then o.swap else o

/-- The first fields of two rows that are not identical are not misplaced; and
if they are level for `evaluate`, the remaining keys order the rows as the
types of the two do. -/
def Agreeing (number : JsString → JsNumber) : SortKeys → (a b : JsString → Cell) → Prop
  | [], _, _ => True
  | (param, asc) :: sort, a, b =>
      let v := (a param).field
      let w := (b param).field
      if v = w then Agreeing number sort a b
      else ¬ Field.Misplaced number v w ∧ ¬ Field.Misplaced number w v ∧
        (sortRank v.value = sortRank w.value →
          rowOrder sort (lookupOf a) (lookupOf b) = directed asc (cmp v.weight w.weight))

/-- The directions of a sort specification. -/
def Directions (sort : SortKeys) : Prop := ∀ kv ∈ sort, kv.2 = 1 ∨ kv.2 = -1

theorem keyOrder_field (asc : ℤ) (v w : Field) :
    keyOrder asc v.value w.value = directed asc (v.rankOrder w) := by
  unfold keyOrder directed
  split_ifs
  · exact Field.rankOrder_swap v w
  · rfl

/-- The sign of the difference of two weights. -/
theorem cmp_clipped (m n : ℤ) : cmp (max (-1) (min 1 (m - n))) 0 = cmp m n := by
  rcases lt_trichotomy m n with h | rfl | h
  · rw [(cmp_eq_lt_iff m n).mpr h, cmp_eq_lt_iff]
    omega
  · have hzero : max (-1) (min 1 (m - m)) = 0 := by omega
    rw [hzero, cmp_self_eq_eq, cmp_self_eq_eq]
  · rw [(cmp_eq_gt_iff m n).mpr h, cmp_eq_gt_iff]
    omega

theorem cmp_mul_direction {asc : ℤ} (h : asc = 1 ∨ asc = -1) (n : ℤ) :
    cmp (n * asc) 0 = directed asc (cmp n 0) := by
  rcases h with rfl | rfl
  · rw [mul_one, directed, if_neg (by decide)]
  · rw [directed, if_pos (by decide), cmp_swap]
    rcases lt_trichotomy n 0 with h | rfl | h
    · rw [(cmp_eq_gt_iff _ _).mpr (by omega), (cmp_eq_gt_iff _ _).mpr (by omega)]
    · rfl
    · rw [(cmp_eq_lt_iff _ _).mpr (by omega), (cmp_eq_lt_iff _ _).mpr (by omega)]

/-- The sign of `compareFunction` goes by the first fields that are not
identical. -/
theorem cmp_compareFunction {param : JsString} {asc : ℤ} (hasc : asc = 1 ∨ asc = -1) :
    cmp (compareFunction number ((param, asc) :: sort) a b) 0
      = if (a param).field = (b param).field then cmp (compareFunction number sort a b) 0
        else directed asc (Field.jsOrder number (a param).field (b param).field) := by
  rw [compareFunction]
  by_cases heq : (a param).field = (b param).field
  · rw [if_pos heq, heq, Field.gt_irrefl, if_neg Bool.false_ne_true, if_neg Bool.false_ne_true,
      if_neg (not_not.mpr rfl)]
  · rw [if_neg heq, Field.jsOrder]
    split_ifs
    · have := cmp_mul_direction hasc 1
      rwa [one_mul] at this
    · have := cmp_mul_direction hasc (-1)
      rw [mul_comm, this]
      rfl
    · rw [cmp_mul_direction hasc, cmp_clipped]

theorem directed_inj {asc : ℤ} {o o' : Ordering} : directed asc o = directed asc o' ↔ o = o' := by
  unfold directed
  split_ifs
  · exact Ordering.swap_inj
  · rfl

theorem directed_eq {asc : ℤ} {o : Ordering} : directed asc o = .eq ↔ o = .eq := by
  unfold directed
  split_ifs
  · cases o <;> simp
  · rfl

/-- The condition says that the sign of `compareFunction` is the order of
`evaluate`. -/
theorem agreeing_iff (hsort : Directions sort) (a b : JsString → Cell) :
    Agreeing number sort a b
      ↔ cmp (compareFunction number sort a b) 0 = rowOrder sort (lookupOf a) (lookupOf b) := by
  induction sort with
  | nil => exact iff_of_true trivial rfl
  | cons kv sort ih =>
      obtain ⟨param, asc⟩ := kv
      have hasc := hsort _ (List.mem_cons_self ..)
      have hrest := ih fun kv hkv => hsort kv (List.mem_cons_of_mem _ hkv)
      rw [cmp_compareFunction hasc, rowOrder]
      change _ ↔ _ = (keyOrder asc (a param).field.value (b param).field.value).then _
      rw [keyOrder_field, Agreeing]
      generalize (a param).field = v
      generalize (b param).field = w
      dsimp only
      by_cases heq : v = w
      · subst heq
        have hself : directed asc (v.rankOrder v) = .eq := directed_eq.mpr (cmp_self_eq_eq _)
        rw [if_pos rfl, if_pos rfl, hself]
        exact hrest
      · rw [if_neg heq, if_neg heq]
        cases hrank : v.rankOrder w with
        | lt =>
            have hlt := (cmp_eq_lt_iff _ _).mp hrank
            have hback : ¬ Field.Misplaced number w v := fun h =>
              absurd ((cmp_eq_lt_iff _ _).mp h.rankOrder_eq) hlt.not_gt
            have hthen : ∀ o, (directed asc Ordering.lt).then o = directed asc .lt := by
              intro o
              unfold directed
              split_ifs <;> rfl
            rw [hthen, directed_inj]
            rcases Field.jsOrder_of_lt hrank with ⟨hjs, hok⟩ | ⟨hjs, hbad⟩
            · exact iff_of_true ⟨hok, hback, fun h => absurd h hlt.ne⟩ hjs
            · exact iff_of_false (fun h => h.1 hbad) (by rw [hjs]; decide)
        | gt =>
            have hgt := (cmp_eq_gt_iff _ _).mp hrank
            have hswap : w.rankOrder v = .lt := (cmp_eq_lt_iff _ _).mpr hgt
            have hback : ¬ Field.Misplaced number v w := fun h =>
              absurd ((cmp_eq_lt_iff _ _).mp h.rankOrder_eq) hgt.not_gt
            have hthen : ∀ o, (directed asc Ordering.gt).then o = directed asc .gt := by
              intro o
              unfold directed
              split_ifs <;> rfl
            rw [hthen, directed_inj, Field.jsOrder_swap w v]
            have hcases : Field.jsOrder number w v = .lt ∧ ¬ Field.Misplaced number w v
                ∨ Field.jsOrder number w v = .gt ∧ Field.Misplaced number w v :=
              Field.jsOrder_of_lt hswap
            rcases hcases with ⟨hjs, hok⟩ | ⟨hjs, hbad⟩
            · exact iff_of_true ⟨hback, hok, fun h => absurd h hgt.ne'⟩ (by rw [hjs]; rfl)
            · exact iff_of_false (fun h => h.2.1 hbad) (by rw [hjs]; decide)
        | eq =>
            have hlevel := (cmp_eq_eq_iff _ _).mp hrank
            have hno : ∀ {v w : Field}, v.rankOrder w = .eq → ¬ Field.Misplaced number v w := by
              intro v w hrank h
              rw [h.rankOrder_eq] at hrank
              cases hrank
            have hback : w.rankOrder v = .eq := (cmp_eq_eq_iff _ _).mpr hlevel.symm
            rw [Field.jsOrder_of_eq hrank heq, directed_eq.mpr rfl]
            constructor
            · exact fun h => (h.2.2 hlevel).symm
            · exact fun h => ⟨hno hrank, hno hback, fun _ => h.symm⟩

/-! ## Sorting by `compareFunction` -/

theorem rowOrder_swap (sort : SortKeys) (a b : Lookup) :
    rowOrder sort b a = (rowOrder sort a b).swap := by
  induction sort with
  | nil => rfl
  | cons kv sort ih =>
      have hkey : keyOrder kv.2 (b kv.1) (a kv.1) = (keyOrder kv.2 (a kv.1) (b kv.1)).swap := by
        unfold keyOrder
        split_ifs <;> exact (cmp_swap _ _).symm
      rw [rowOrder, rowOrder, hkey, ih]
      cases keyOrder kv.2 (a kv.1) (b kv.1) <;> rfl

theorem compareFunction_swap (hsort : Directions sort) (a b : JsString → Cell) :
    compareFunction number sort b a = -compareFunction number sort a b := by
  induction sort with
  | nil => rfl
  | cons kv sort ih =>
      obtain ⟨param, asc⟩ := kv
      have hrest := ih fun kv hkv => hsort kv (List.mem_cons_of_mem _ hkv)
      simp only [compareFunction]
      cases hgt : (a param).field.gt number (b param).field with
      | true => simp [Field.gt_asymm hgt]
      | false =>
          cases hlt : (b param).field.gt number (a param).field with
          | true => simp
          | false =>
              by_cases heq : (a param).field = (b param).field
              · simp [heq, hrest]
              · have hclip : ∀ m n : ℤ, max (-1) (min 1 (n - m)) = -max (-1) (min 1 (m - n)) := by
                  intro m n
                  omega
                simp only [Bool.false_eq_true, if_false, if_pos heq, if_pos (Ne.symm heq)]
                rw [hclip, neg_mul]

/-- Not being after is transitive by one key, and being level carries over. -/
theorem keyOrder_trans {asc : ℤ} {u v w : Option Value} :
    (keyOrder asc u v = .lt → keyOrder asc v w ≠ .gt → keyOrder asc u w = .lt)
      ∧ (keyOrder asc u v = .eq → keyOrder asc u w = keyOrder asc v w) := by
  unfold keyOrder
  split_ifs
  · simp only [cmp_eq_lt_iff, cmp_eq_eq_iff, ne_eq, cmp_eq_gt_iff, not_lt]
    exact ⟨fun h h' => lt_of_le_of_lt h' h, fun h => by rw [h]⟩
  · simp only [cmp_eq_lt_iff, cmp_eq_eq_iff, ne_eq, cmp_eq_gt_iff, not_lt]
    exact ⟨fun h h' => lt_of_lt_of_le h h', fun h => by rw [h]⟩

theorem rowOrder_trans {sort : SortKeys} {a b c : Lookup} (hab : rowOrder sort a b ≠ .gt)
    (hbc : rowOrder sort b c ≠ .gt) : rowOrder sort a c ≠ .gt := by
  induction sort with
  | nil => exact hab
  | cons kv sort ih =>
      obtain ⟨hlt, heq⟩ := @keyOrder_trans kv.2 (a kv.1) (b kv.1) (c kv.1)
      rw [rowOrder] at hab hbc ⊢
      cases hkab : keyOrder kv.2 (a kv.1) (b kv.1) with
      | gt =>
          rw [hkab] at hab
          exact absurd rfl hab
      | lt =>
          have hnot : keyOrder kv.2 (b kv.1) (c kv.1) ≠ .gt := by
            intro h
            rw [h] at hbc
            exact hbc rfl
          rw [hlt hkab hnot]
          exact fun h => nomatch h
      | eq =>
          rw [hkab] at hab
          rw [heq hkab]
          cases hkbc : keyOrder kv.2 (b kv.1) (c kv.1) with
          | gt =>
              rw [hkbc] at hbc
              exact absurd rfl hbc
          | lt => exact fun h => nomatch h
          | eq =>
              rw [hkbc] at hbc
              exact ih hab hbc

/-- The function sorts the rows of a set: swapping them swaps the sign, and
not being after is transitive. -/
structure Sorts (R : Set (JsString → Cell)) (f : (a b : JsString → Cell) → ℤ) : Prop where
  antisymm : ∀ a ∈ R, ∀ b ∈ R, (f b a).sign = -(f a b).sign
  trans : ∀ a ∈ R, ∀ b ∈ R, ∀ c ∈ R, f a b ≤ 0 → f b c ≤ 0 → f a c ≤ 0

theorem rowOrder_toBookmark (sort : SortKeys) (a : Lookup) (b : JsString → Cell) :
    rowOrder sort a (toBookmark sort b) = rowOrder sort a (lookupOf b) := by
  have hsame : ∀ kv ∈ sort, toBookmark sort b kv.1 = lookupOf b kv.1 := fun kv hkv =>
    if_pos (List.mem_map_of_mem hkv)
  have hgeneral : ∀ (x y : Lookup) (keys : SortKeys), (∀ kv ∈ keys, x kv.1 = y kv.1) →
      rowOrder keys a x = rowOrder keys a y := by
    intro x y keys
    induction keys with
    | nil => exact fun _ => rfl
    | cons kv keys ih =>
        intro hkeys
        rw [rowOrder, rowOrder, hkeys kv (List.mem_cons_self ..),
          ih fun kv hkv => hkeys kv (List.mem_cons_of_mem _ hkv)]
  exact hgeneral _ _ sort hsame

theorem nonpos_iff (n : ℤ) : n ≤ 0 ↔ cmp n 0 ≠ .gt := by
  rw [ne_eq, cmp_eq_gt_iff, not_lt]

/-- The filter of a bookmark lets through what is not after it. -/
theorem truthyOn_bookmark (J : Js) (now : Option ℚ) (sort : SortKeys) (r b : JsString → Cell) :
    truthyOn J (lookupOf r) now (bookmarkToExpression (toBookmark sort b) sort) = .ok true
      ↔ rowOrder sort (lookupOf r) (lookupOf b) ≠ .gt := by
  obtain ⟨t, hmeans, ht⟩ :=
    @bookmarkToExpression_means J (lookupOf r) now (toBookmark sort b) sort
  rw [hmeans.truthyOn_eq, Except.ok.injEq, decide_eq_true_iff, ht, rowOrder_toBookmark]

/-- On any set of rows: bookmarks cut where `compareFunction` sorts, and it is
a total preorder, if and only if any two rows agree. -/
theorem compareFunction_iff (J : Js) (now : Option ℚ) (number : JsString → JsNumber)
    {sort : SortKeys} (hsort : Directions sort) (R : Set (JsString → Cell)) :
    (∀ r ∈ R, ∀ b ∈ R,
        (truthyOn J (lookupOf r) now (bookmarkToExpression (toBookmark sort b) sort) = .ok true
          ↔ compareFunction number sort r b ≤ 0))
      ∧ Sorts R (compareFunction number sort)
      ↔ ∀ r ∈ R, ∀ b ∈ R, Agreeing number sort r b := by
  constructor
  · rintro ⟨hcut, -⟩ r hr b hb
    rw [agreeing_iff hsort]
    have h1 := hcut r hr b hb
    have h2 := hcut b hb r hr
    rw [truthyOn_bookmark, nonpos_iff, not_iff_not] at h1 h2
    rw [rowOrder_swap, compareFunction_swap hsort] at h2
    have hneg : cmp (-compareFunction number sort r b) 0
        = (cmp (compareFunction number sort r b) 0).swap := by
      have := cmp_mul_direction (.inr rfl) (compareFunction number sort r b)
      rwa [mul_neg_one] at this
    rw [hneg] at h2
    generalize cmp (compareFunction number sort r b) 0 = o at h1 h2 ⊢
    generalize rowOrder sort (lookupOf r) (lookupOf b) = o' at h1 h2 ⊢
    cases o <;> cases o' <;> simp at h1 h2 ⊢
  · intro hagree
    have hsign : ∀ r ∈ R, ∀ b ∈ R,
        (compareFunction number sort r b ≤ 0 ↔ rowOrder sort (lookupOf r) (lookupOf b) ≠ .gt) := by
      intro r hr b hb
      rw [nonpos_iff, (agreeing_iff hsort r b).mp (hagree r hr b hb)]
    refine ⟨fun r hr b hb => ?_, fun a ha b hb => ?_, fun a ha b hb c hc hab hbc => ?_⟩
    · rw [truthyOn_bookmark, hsign r hr b hb]
    · rw [compareFunction_swap hsort, Int.sign_neg]
    · rw [hsign _ ha _ hb] at hab
      rw [hsign _ hb _ hc] at hbc
      rw [hsign _ ha _ hc]
      exact rowOrder_trans hab hbc

end

/-! ## Signal strengths -/

/-- A row of one parameter. -/
def oneCell (param : JsString) (cell : Cell) : JsString → Cell := fun p =>
  if p = param then cell else .undefined

/-- A missing strength and -70 come as they should, as do -70 and -50. -/
theorem compareFunction_iff_missing :
    Sorts {oneCell (js "rssi") .undefined, oneCell (js "rssi") (.val (.num (-70)))}
      (compareFunction (fun _ => none) [(js "rssi", 1)]) := by
  refine ((compareFunction_iff idleJs none _ (by simp [Directions]) _).mpr ?_).2
  rintro r (rfl | rfl) b (rfl | rfl) <;>
    simp [Agreeing, oneCell, Cell.field, Field.Misplaced, Field.value, sortRank]

/-- A strength that is null sorts after -70, and the bookmark at -70 lets it
through. -/
theorem compareFunction_null :
    truthyOn idleJs (lookupOf (oneCell (js "rssi") .null)) none
        (bookmarkToExpression
          (toBookmark [(js "rssi", 1)] (oneCell (js "rssi") (.val (.num (-70))))) [(js "rssi", 1)])
        = .ok true
      ∧ compareFunction (fun _ => none) [(js "rssi", 1)] (oneCell (js "rssi") .null)
        (oneCell (js "rssi") (.val (.num (-70)))) = 1 := by
  decide +kernel

end GenieAcs
