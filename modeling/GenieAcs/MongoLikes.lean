import GenieAcs.MongoQuery

/-!
# The don't-cares of LIKE clauses

`getDcSet` compares the LIKE clauses on one operand in pairs, for filters
(`lib/common/expression/synth.ts`) and for MongoDB queries (`lib/db/synth.ts`).
Where one of the two ignores the case, the tokens of both are compared in lower
case. For MongoDB queries the tokens of the first are kept from one pair to the
next, so once they are in lower case they stay so.
-/

namespace GenieAcs

/-- What is found out about the texts of two LIKE clauses. -/
inductive LikeRelation where
  | disjoint | secondImplies | firstImplies | none
  deriving DecidableEq

/-- The comparisons of a pair, which the two loops make alike. -/
def likeRelation (caseSensitive1 caseSensitive2 : Bool) (p1 p2 : List JsString) : LikeRelation :=
  if Like.likeDisjoint p1 p2 then .disjoint
  else if (!caseSensitive1 || caseSensitive2) && Like.likeImplies p1 p2 then .secondImplies
  else if (!caseSensitive2 || caseSensitive1) && Like.likeImplies p2 p1 then .firstImplies
  else .none

/-! ## MongoDB queries -/

/-- `MongoClauseLike`. -/
structure MongoLike where
  parameter : JsString
  pattern : List JsString
  caseSensitive : Bool

def MongoLike.clause (l : MongoLike) : MongoClause := .like l.parameter l.pattern l.caseSensitive

namespace MongoSynthContext

variable (J : Js)

/-- The inner loop for `l1`, with `p1` from before it. -/
def compareLikes (l1 : MongoLike) : List JsString → List MongoLike → List LikeRelation
  | _, [] => []
  | p1, l2 :: likes =>
      let fold := !l1.caseSensitive || !l2.caseSensitive
      let p1 := if fold then p1.map J.toLowerCase else p1
      let p2 := if fold then l2.pattern.map J.toLowerCase else l2.pattern
      likeRelation l1.caseSensitive l2.caseSensitive p1 p2 :: compareLikes l1 p1 likes

/-- The don't-cares of a pair, of literals `(v << 1) ^ k`. -/
def likeMinterms (v1 v2 : Nat) : LikeRelation → Minterms
  | .disjoint => [[2 * v1 + 1, 2 * v2 + 1]]
  | .secondImplies => [[2 * v1, 2 * v2 + 1]]
  | .firstImplies => [[2 * v1 + 1, 2 * v2]]
  | .none => []

/-- The LIKE clauses on one operand, `isType` being the variable of its type. -/
def dcLikes (getVar : MongoClause → Nat) (isType : Nat) : List MongoLike → Minterms
  | [] => []
  | l1 :: likes =>
      [2 * getVar l1.clause + 1, 2 * isType]
        :: (likes.zip (compareLikes J l1 l1.pattern likes)).flatMap (fun pair =>
          likeMinterms (getVar l1.clause) (getVar pair.1.clause) pair.2)
        ++ dcLikes getVar isType likes

/-- What is derived for the clauses at `i1` and `i2`. -/
def derived (likes : List MongoLike) (i1 i2 : Nat) : Option LikeRelation :=
  match likes.drop i1 with
  | [] => none
  | l1 :: rest => (compareLikes J l1 l1.pattern rest)[i2 - i1 - 1]?

end MongoSynthContext

/-! ## Filters -/

namespace Methods

variable (E : Env) (self : Methods)

/-- What `dcLikePair` finds out. -/
def pairRelation (J : Js) (caseSensitive1 caseSensitive2 : Bool)
    (pattern1 pattern2 : List JsString) : LikeRelation :=
  let fold := if !caseSensitive1 || !caseSensitive2 then List.map J.toLowerCase else id
  likeRelation caseSensitive1 caseSensitive2 (fold pattern1) (fold pattern2)

/-- The don't-cares of a pair. -/
def likeMinterms (v1 v2 : Nat) : LikeRelation → Minterms
  | .disjoint => [[literal v1 3, literal v2 3]]
  | .secondImplies => [[literal v1 2, literal v2 3], [literal v1 1, literal v2 0]]
  | .firstImplies => [[literal v1 3, literal v2 2], [literal v1 0, literal v2 1]]
  | .none => []

/-- Two clauses alone are given the don't-cares of what is found out about them. -/
theorem dcLikeGroup_pair (lhs : Clause) (rhs1 rhs2 : JsString) (esc1 esc2 : Option JsString)
    (pattern1 pattern2 : List JsString) (cs1 cs2 : Bool) :
    self.dcLikeGroup E [.like lhs rhs1 esc1 pattern1 cs1 false,
        .like lhs rhs2 esc2 pattern2 cs2 false]
      = (match pairRelation E.J cs1 cs2 pattern1 pattern2 with
        | .none => pure []
        | r => do
            let v1 ← self.getVar (.like lhs rhs1 esc1 pattern1 cs1 false)
            let v2 ← self.getVar (.like lhs rhs2 esc2 pattern2 cs2 false)
            pure (likeMinterms v1 v2 r)) := by
  have hpair : self.dcLikeGroup E [.like lhs rhs1 esc1 pattern1 cs1 false,
      .like lhs rhs2 esc2 pattern2 cs2 false]
        = self.dcLikePair E (.like lhs rhs1 esc1 pattern1 cs1 false)
          (.like lhs rhs2 esc2 pattern2 cs2 false) := by
    simp [dcLikeGroup]
  rw [hpair]
  unfold dcLikePair pairRelation likeRelation
  dsimp only
  rw [if_neg Bool.false_ne_true]
  by_cases hfold : (!cs1 || !cs2) = true
  · simp only [if_pos hfold]
    split_ifs <;> rfl
  · simp only [if_neg hfold]
    split_ifs <;> rfl

end Methods

/-! ## The two compared -/

/-- Two token lists do not differ in what is asked about them and a third. -/
def SameFindings (p q r : List JsString) : Prop :=
  Like.likeDisjoint p r = Like.likeDisjoint q r
    ∧ (Like.likeDisjoint q r = false → Like.likeImplies p r = Like.likeImplies q r
      ∧ (Like.likeImplies q r = false → Like.likeImplies r p = Like.likeImplies r q))

theorem likeRelation_eq_iff {p q r : List JsString} :
    likeRelation true true p r = likeRelation true true q r ↔ SameFindings p q r := by
  unfold likeRelation SameFindings
  cases Like.likeDisjoint p r <;> cases Like.likeDisjoint q r <;>
    cases Like.likeImplies p r <;> cases Like.likeImplies q r <;>
    cases Like.likeImplies r p <;> cases Like.likeImplies r q <;> simp

namespace MongoSynthContext

variable {J : Js}

/-- Which tokens of the first clause are compared with the second. -/
theorem compareLikes_getElem (hlower : ∀ s, J.toLowerCase (J.toLowerCase s) = J.toLowerCase s)
    (l1 l2 : MongoLike) (between after : List MongoLike) :
    ∀ p1, (compareLikes J l1 p1 (between ++ l2 :: after))[between.length]?
      = some (likeRelation l1.caseSensitive l2.caseSensitive
        (if l1.caseSensitive && l2.caseSensitive && between.all MongoLike.caseSensitive then p1
          else p1.map J.toLowerCase)
        (if !l1.caseSensitive || !l2.caseSensitive then l2.pattern.map J.toLowerCase
          else l2.pattern)) := by
  have hagain : ∀ p : List JsString, (p.map J.toLowerCase).map J.toLowerCase
      = p.map J.toLowerCase := by
    intro p
    rw [List.map_map]
    exact List.map_congr_left fun c _ => hlower c
  induction between with
  | nil =>
      intro p1
      cases hcase1 : l1.caseSensitive <;> cases hcase2 : l2.caseSensitive <;>
        simp [compareLikes, hcase1, hcase2]
  | cons l between ih =>
      intro p1
      rw [List.cons_append, compareLikes, List.length_cons, List.getElem?_cons_succ, ih]
      cases hcase1 : l1.caseSensitive <;> cases hcase2 : l2.caseSensitive <;>
        cases hcase : l.caseSensitive <;> simp [hagain, hcase]

/-- The don't-cares are the types of the clauses and what is derived for the pairs. -/
theorem mem_dcLikes {getVar : MongoClause → Nat} {isType : Nat} {m : Minterm} :
    ∀ {likes : List MongoLike}, m ∈ dcLikes J getVar isType likes
      ↔ (∃ l ∈ likes, m = [2 * getVar l.clause + 1, 2 * isType])
        ∨ ∃ i1 i2 l1 l2 r, i1 < i2 ∧ likes[i1]? = some l1 ∧ likes[i2]? = some l2
          ∧ derived J likes i1 i2 = some r
          ∧ m ∈ likeMinterms (getVar l1.clause) (getVar l2.clause) r := by
  intro likes
  induction likes with
  | nil => simp [dcLikes]
  | cons l1 likes ih =>
      rw [dcLikes, List.mem_append, List.mem_cons, ih, List.mem_flatMap]
      constructor
      · rintro ((rfl | ⟨⟨l2, r⟩, hzip, hm⟩) | ⟨l, hl, rfl⟩ | ⟨i1, i2, a, b, r, hlt, ha, hb, hr, hm⟩)
        · exact Or.inl ⟨l1, List.mem_cons_self .., rfl⟩
        · obtain ⟨n, hn⟩ := List.mem_iff_getElem?.mp hzip
          obtain ⟨hl2, hr⟩ := List.getElem?_zip_eq_some.mp hn
          exact Or.inr ⟨0, n + 1, l1, l2, r, Nat.succ_pos n, rfl, hl2, hr, hm⟩
        · exact Or.inl ⟨l, List.mem_cons_of_mem _ hl, rfl⟩
        · refine Or.inr ⟨i1 + 1, i2 + 1, a, b, r, Nat.succ_lt_succ hlt, ha, hb, ?_, hm⟩
          rw [derived, Nat.add_sub_add_right]
          exact hr
      · rintro (⟨l, hl, rfl⟩ | ⟨i1, i2, a, b, r, hlt, ha, hb, hr, hm⟩)
        · rcases List.mem_cons.mp hl with rfl | hl
          · exact Or.inl (Or.inl rfl)
          · exact Or.inr (Or.inl ⟨l, hl, rfl⟩)
        · obtain ⟨i2, rfl⟩ := Nat.exists_eq_succ_of_ne_zero (Nat.ne_zero_of_lt hlt)
          cases i1 with
          | zero =>
              obtain rfl := Option.some.inj ha
              refine Or.inl (Or.inr ⟨(b, r), ?_, hm⟩)
              exact List.mem_iff_getElem?.mpr ⟨i2, List.getElem?_zip_eq_some.mpr ⟨hb, hr⟩⟩
          | succ i1 =>
              refine Or.inr (Or.inr ⟨i1, i2, a, b, r, Nat.lt_of_succ_lt_succ hlt, ha, hb, ?_, hm⟩)
              rw [derived, Nat.succ_eq_add_one, Nat.add_sub_add_right] at hr
              exact hr

theorem split_at {likes : List MongoLike} {i1 i2 : Nat} {l1 l2 : MongoLike} (hlt : i1 < i2)
    (h1 : likes[i1]? = some l1) (h2 : likes[i2]? = some l2) :
    ∃ between after, likes.drop i1 = l1 :: (between ++ l2 :: after)
      ∧ between.length = i2 - i1 - 1
      ∧ ∀ l, l ∈ between ↔ ∃ i, i1 < i ∧ i < i2 ∧ likes[i]? = some l := by
  obtain ⟨hlt1, heq1⟩ := List.getElem?_eq_some_iff.mp h1
  obtain ⟨hlt2, heq2⟩ := List.getElem?_eq_some_iff.mp h2
  refine ⟨(likes.drop (i1 + 1)).take (i2 - i1 - 1), likes.drop (i2 + 1), ?_, ?_, fun l => ?_⟩
  · have hrest : (likes.drop (i1 + 1)).drop (i2 - i1 - 1) = l2 :: likes.drop (i2 + 1) := by
      rw [List.drop_drop, show i1 + 1 + (i2 - i1 - 1) = i2 by omega,
        List.drop_eq_getElem_cons hlt2, heq2]
    rw [List.drop_eq_getElem_cons hlt1, heq1, ← hrest, List.take_append_drop]
  · rw [List.length_take, List.length_drop]
    omega
  · rw [List.mem_iff_getElem?]
    constructor
    · rintro ⟨n, hn⟩
      rw [List.getElem?_take] at hn
      split_ifs at hn with hlen
      rw [List.getElem?_drop] at hn
      exact ⟨i1 + 1 + n, by omega, by omega, hn⟩
    · rintro ⟨i, hi1, hi2, hi⟩
      refine ⟨i - i1 - 1, ?_⟩
      rw [List.getElem?_take, if_pos (by omega), List.getElem?_drop,
        show i1 + 1 + (i - i1 - 1) = i by omega]
      exact hi

/-- The relation of a pair is that of the two alone exactly if the case is not
lost on the way, or makes no difference. -/
theorem derived_iff (hlower : ∀ s, J.toLowerCase (J.toLowerCase s) = J.toLowerCase s)
    (likes : List MongoLike) (i1 i2 : Nat) (l1 l2 : MongoLike) (hlt : i1 < i2)
    (h1 : likes[i1]? = some l1) (h2 : likes[i2]? = some l2) :
    derived J likes i1 i2
        = some (Methods.pairRelation J l1.caseSensitive l2.caseSensitive l1.pattern l2.pattern)
      ↔ (l1.caseSensitive = true → l2.caseSensitive = true →
        (∃ i l, i1 < i ∧ i < i2 ∧ likes[i]? = some l ∧ l.caseSensitive = false) →
          SameFindings (l1.pattern.map J.toLowerCase) l1.pattern l2.pattern) := by
  obtain ⟨between, after, hdrop, hlen, hmem⟩ := split_at hlt h1 h2
  have hbetween : between.all MongoLike.caseSensitive = false
      ↔ ∃ i l, i1 < i ∧ i < i2 ∧ likes[i]? = some l ∧ l.caseSensitive = false := by
    rw [List.all_eq_false]
    constructor
    · rintro ⟨l, hl, hcase⟩
      obtain ⟨i, hi1, hi2, hi⟩ := (hmem l).mp hl
      exact ⟨i, l, hi1, hi2, hi, Bool.eq_false_iff.mpr hcase⟩
    · rintro ⟨i, l, hi1, hi2, hi, hcase⟩
      exact ⟨l, (hmem l).mpr ⟨i, hi1, hi2, hi⟩, Bool.eq_false_iff.mp hcase⟩
  rw [← hbetween, ← likeRelation_eq_iff, derived, hdrop]
  dsimp only
  rw [← hlen, compareLikes_getElem hlower, Option.some_inj]
  unfold Methods.pairRelation
  cases l1.caseSensitive <;> cases l2.caseSensitive <;>
    cases between.all MongoLike.caseSensitive <;> simp

/-! ## Two patterns that differ in case -/

/-- The lower case of ASCII. -/
def asciiJs : Js :=
  { idleJs with
    toLowerCase := List.map fun c => if 65 ≤ c ∧ c ≤ 90 then c + 32 else c }

/-- `A%` and `a%`, with an `x%` between them that ignores the case. -/
def casesMixed : List MongoLike :=
  [⟨js "name", Like.parseLikePattern (js "A%") none, true⟩,
    ⟨js "name", Like.parseLikePattern (js "x%") none, false⟩,
    ⟨js "name", Like.parseLikePattern (js "a%") none, true⟩]

theorem asciiJs_lower (s : JsString) :
    asciiJs.toLowerCase (asciiJs.toLowerCase s) = asciiJs.toLowerCase s := by
  simp only [asciiJs, List.map_map]
  refine List.map_congr_left fun c _ => ?_
  simp only [Function.comp]
  split_ifs <;> omega

theorem derived_iff_mixed :
    derived asciiJs casesMixed 0 1
        = some (Methods.pairRelation asciiJs true false
          (Like.parseLikePattern (js "A%") none) (Like.parseLikePattern (js "x%") none)) :=
  (derived_iff asciiJs_lower casesMixed 0 1 _ _ Nat.zero_lt_one rfl rfl).mpr
    fun _ hcase => nomatch hcase

/-- They are found to have the same texts, and have none in common. -/
theorem derived_mixed :
    derived asciiJs casesMixed 0 2 = some .secondImplies
      ∧ Methods.pairRelation asciiJs true true
        (Like.parseLikePattern (js "A%") none) (Like.parseLikePattern (js "a%") none)
          = .disjoint := by
  decide

end MongoSynthContext

end GenieAcs
