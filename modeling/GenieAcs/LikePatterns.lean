import Mathlib.Data.List.TakeWhile
import GenieAcs.Lib.WildcardCover
import GenieAcs.Like

/-!
# Comparing LIKE patterns

`likeDisjoint` and `likeImplies` answer questions about all texts of two
patterns from their tokens alone. Disjointness is concluded from the tokens
before the first and after the last `%` and from the lengths. Implication runs a
matcher for texts over the tokens of the other pattern, so that a `_` also takes
a `%`.
-/

namespace GenieAcs

namespace Like

open Wildcard

/-! ## Tokens -/

/-- A token, as the code units it stands for. -/
def token (t : JsString) : Token Nat :=
  if t = anyRun then .run else if t = anyOne then .one else .unit (t.headD 0)

/-- The texts that a token list matches. -/
def Matches (p : List JsString) (s : JsString) : Prop := Wildcard.Matches (p.map token) s

/-- A wildcard, or one code unit. -/
def IsToken (t : JsString) : Prop := t = anyRun ∨ t = anyOne ∨ ∃ c, t = [c]

theorem tokens_isToken (esc : Option JsString) (run : Bool) (pat : JsString) :
    ∀ t ∈ tokens esc run pat, IsToken t := by
  fun_induction tokens esc run pat with
  | case1 => exact fun t ht => absurd ht List.not_mem_nil
  | case2 run c cs h ih => exact ih
  | case3 => exact fun t ht => absurd ht List.not_mem_nil
  | case4 run c h1 h2 d cs ih =>
      intro t ht
      rcases List.mem_cons.mp ht with rfl | ht
      · exact Or.inr (Or.inr ⟨d, rfl⟩)
      · exact ih t ht
  | case5 run cs h1 h2 ih =>
      intro t ht
      rcases List.mem_cons.mp ht with rfl | ht
      · exact Or.inr (Or.inl rfl)
      · exact ih t ht
  | case6 run cs h1 h2 h3 ih =>
      intro t ht
      rcases List.mem_cons.mp ht with rfl | ht
      · exact Or.inl rfl
      · exact ih t ht
  | case7 run c cs h1 h2 h3 h4 ih =>
      intro t ht
      rcases List.mem_cons.mp ht with rfl | ht
      · exact Or.inr (Or.inr ⟨c, rfl⟩)
      · exact ih t ht

theorem parse_isToken (pat : JsString) (esc : Option JsString) :
    ∀ t ∈ parseLikePattern pat esc, IsToken t := tokens_isToken esc false pat

theorem token_run {t : JsString} : token t = .run ↔ t = anyRun := by
  unfold token
  split_ifs with h1 h2
  · exact ⟨fun _ => h1, fun _ => rfl⟩
  · exact ⟨(fun h => nomatch h), fun h => absurd h h1⟩
  · exact ⟨(fun h => nomatch h), fun h => absurd h h1⟩

theorem token_one {t : JsString} : token t = .one ↔ t = anyOne := by
  unfold token
  split_ifs with h1 h2
  · refine ⟨(fun h => nomatch h), fun h => ?_⟩
    rw [h1] at h
    exact absurd h (by decide)
  · exact ⟨fun _ => h2, fun _ => rfl⟩
  · exact ⟨(fun h => nomatch h), fun h => absurd h h2⟩

/-- Different tokens without wildcards stand for different code units. -/
theorem token_injective {t u : JsString} (ht : IsToken t) (hu : IsToken u)
    (h : token t = token u) : t = u := by
  by_cases hrun : t = anyRun
  · exact hrun.trans (token_run.mp (h.symm.trans (token_run.mpr hrun))).symm
  · by_cases hone : t = anyOne
    · exact hone.trans (token_one.mp (h.symm.trans (token_one.mpr hone))).symm
    · obtain ⟨c, rfl⟩ := (ht.resolve_left hrun).resolve_left hone
      have hrun' : u ≠ anyRun := fun heq => hrun (token_run.mp (h.trans (token_run.mpr heq)))
      have hone' : u ≠ anyOne := fun heq => hone (token_one.mp (h.trans (token_one.mpr heq)))
      obtain ⟨d, rfl⟩ := (hu.resolve_left hrun').resolve_left hone'
      rw [token, if_neg hrun, if_neg hone, token, if_neg hrun', if_neg hone'] at h
      cases h
      rfl

/-! ## Disjoint patterns -/

theorem takeWhile_token (p : List JsString) :
    (p.map token).takeWhile (· ≠ .run) = (p.takeWhile (· ≠ anyRun)).map token := by
  rw [List.takeWhile_map]
  congr 2
  funext t
  simp [token_run]

theorem filter_token (p : List JsString) :
    ((p.map token).filter (· ≠ .run)).length = (p.filter (· ≠ anyRun)).length := by
  rw [List.filter_map, List.length_map]
  congr 2
  funext t
  simp [token_run]

/-- Where the tokens before the first `%` clash, no text has both patterns. -/
theorem clash_sound {p q : List JsString} {s : JsString} (hp : ∀ t ∈ p, IsToken t)
    (hq : ∀ t ∈ q, IsToken t)
    (h : clash (p.takeWhile (· ≠ anyRun)) (q.takeWhile (· ≠ anyRun)) = true)
    (hps : Matches p s) (hqs : Matches q s) : False := by
  obtain ⟨⟨t, u⟩, hmem, hclash⟩ := List.any_eq_true.mp h
  obtain ⟨hne, ht, hu⟩ := of_decide_eq_true hclash
  obtain ⟨i, hi⟩ := List.mem_iff_getElem?.mp hmem
  obtain ⟨hti, hui⟩ := List.getElem?_zip_eq_some.mp hi
  obtain ⟨b, hb, htb⟩ := @Wildcard.Matches.lead _ _ _ _ hps i (token t) (by
    rw [takeWhile_token, List.getElem?_map, hti]
    rfl)
  obtain ⟨b', hb', hub⟩ := @Wildcard.Matches.lead _ _ _ _ hqs i (token u) (by
    rw [takeWhile_token, List.getElem?_map, hui]
    rfl)
  cases Option.some.inj (hb.symm.trans hb')
  have htp := List.takeWhile_sublist _ |>.subset (List.mem_of_getElem? hti)
  have huq := List.takeWhile_sublist _ |>.subset (List.mem_of_getElem? hui)
  refine hne (token_injective (hp t htp) (hq u huq) ?_)
  -- both are the code unit of the text
  cases htok : token t with
  | run => rw [htok] at htb; exact htb.elim
  | one => exact absurd (token_one.mp htok) ht
  | unit a =>
      cases hutok : token u with
      | run => rw [hutok] at hub; exact hub.elim
      | one => exact absurd (token_one.mp hutok) hu
      | unit a' =>
          rw [htok] at htb
          rw [hutok] at hub
          exact congrArg Token.unit (Eq.trans htb (Eq.symm hub))

theorem Matches.reverse {p : List JsString} {s : JsString} (h : Matches p s) :
    Matches p.reverse s.reverse := by
  have hrev := Wildcard.Matches.reverse h
  rwa [← List.map_reverse] at hrev

/-- A pattern without `%` has texts of its own length only. -/
theorem length_sound {p q : List JsString} {s : JsString}
    (hplain : p.length = (p.takeWhile (· ≠ anyRun)).length)
    (h : p.length < (q.filter (· ≠ anyRun)).length) (hps : Matches p s) (hqs : Matches q s) :
    False := by
  have hnone : Token.run ∉ p.map token := by
    intro hmem
    obtain ⟨t, ht, hrun⟩ := List.mem_map.mp hmem
    rw [← (List.takeWhile_sublist _).eq_of_length hplain.symm] at ht
    have hkept := List.mem_takeWhile_imp ht
    exact absurd (token_run.mp hrun) (by simpa using hkept)
  have hlen := Wildcard.Matches.length_eq hps hnone
  have hle := Wildcard.Matches.length_le hqs
  rw [filter_token] at hle
  rw [List.length_map] at hlen
  omega

/-- No text has two patterns that are found disjoint. -/
theorem likeDisjoint_sound (pat1 pat2 : JsString) (esc1 esc2 : Option JsString) (s : JsString)
    (h : likeDisjoint (parseLikePattern pat1 esc1) (parseLikePattern pat2 esc2) = true) :
    ¬ (Matches (parseLikePattern pat1 esc1) s ∧ Matches (parseLikePattern pat2 esc2) s) := by
  rintro ⟨h1, h2⟩
  have ht1 := parse_isToken pat1 esc1
  have ht2 := parse_isToken pat2 esc2
  unfold likeDisjoint at h
  simp only at h
  split_ifs at h with hleft hright hplain1 hplain2
  · exact clash_sound ht1 ht2 hleft h1 h2
  · exact clash_sound (fun t ht => ht1 t (List.mem_reverse.mp ht))
      (fun t ht => ht2 t (List.mem_reverse.mp ht)) hright h1.reverse h2.reverse
  · exact length_sound hplain1 (of_decide_eq_true h) h1 h2
  · exact length_sound hplain2 (of_decide_eq_true h) h2 h1

/-- Fixed tokens at the end, one of them escaped. -/
theorem likeDisjoint_sound_suffix :
    ¬ (Matches (parseLikePattern (js "a%\\%x") (some (js "\\"))) (js "a%x")
      ∧ Matches (parseLikePattern (js "%_y") none) (js "a%x")) :=
  likeDisjoint_sound _ _ _ _ _ (by decide)

/-! ## The matcher of `likeImplies` -/

/-- A token of the first pattern, with the tokens of the second as its units. -/
def overToken (t : JsString) : Token JsString :=
  if t = anyRun then .run else if t = anyOne then .one else .unit t

/-- `pat1` can be laid over the tokens of `pat2`, a `_` also over a `%`. -/
def Overlies (pat1 pat2 : List JsString) : Prop := Wildcard.Matches (pat1.map overToken) pat2

theorem overToken_run {t : JsString} : overToken t = .run ↔ t = anyRun := by
  unfold overToken
  split_ifs with h1 h2
  · exact ⟨fun _ => h1, fun _ => rfl⟩
  · exact ⟨(fun h => nomatch h), fun h => absurd h h1⟩
  · exact ⟨(fun h => nomatch h), fun h => absurd h h1⟩

theorem overToken_accepts {t u : JsString} (ht : t ≠ anyRun) :
    (overToken t).Accepts u ↔ t = u ∨ t = anyOne := by
  rw [overToken, if_neg ht]
  split_ifs with hone
  · exact ⟨fun _ => Or.inr hone, fun _ => trivial⟩
  · exact ⟨Or.inl, fun h => h.resolve_right hone⟩

variable {pat1 pat2 : List JsString} {backtrack : Option (Nat × Nat)} {i1 i2 : Nat}

/-- What is left of `pat1` can be laid over what is left of `pat2`. -/
def Left (pat1 pat2 : List JsString) (i1 i2 : Nat) : Prop :=
  Overlies (pat1.drop i1) (pat2.drop i2)

theorem left_run (h : pat1[i1]? = some anyRun) (hi : i2 ≤ pat2.length) :
    Left pat1 pat2 i1 i2 ↔ ∃ k, i2 + k ≤ pat2.length ∧ Left pat1 pat2 (i1 + 1) (i2 + k) := by
  obtain ⟨hlt, hget⟩ := List.getElem?_eq_some_iff.mp h
  rw [Left, Overlies, List.drop_eq_getElem_cons hlt, hget, List.map_cons,
    overToken_run.mpr rfl, matches_run]
  constructor
  · rintro ⟨u, v, huv, hv⟩
    have hlen := congrArg List.length huv
    rw [List.length_drop, List.length_append] at hlen
    have hdrop : pat2.drop (i2 + u.length) = v := by
      rw [← List.drop_drop, huv, List.drop_left]
    exact ⟨u.length, by omega, by rw [Left, hdrop]; exact hv⟩
  · rintro ⟨k, -, hk⟩
    refine ⟨(pat2.drop i2).take k, pat2.drop (i2 + k), ?_, hk⟩
    rw [← List.drop_drop, List.take_append_drop]

theorem left_token {t : JsString} (h : pat1[i1]? = some t) (ht : t ≠ anyRun) :
    Left pat1 pat2 i1 i2 ↔ ∃ u, pat2[i2]? = some u ∧ (t = u ∨ t = anyOne)
      ∧ Left pat1 pat2 (i1 + 1) (i2 + 1) := by
  obtain ⟨hlt, hget⟩ := List.getElem?_eq_some_iff.mp h
  rw [Left, Overlies, List.drop_eq_getElem_cons hlt, hget, List.map_cons,
    matches_cons (fun hrun => ht (overToken_run.mp hrun))]
  constructor
  · rintro ⟨u, s, hus, hacc, hs⟩
    have hi : i2 < pat2.length := by
      have hlen := congrArg List.length hus
      rw [List.length_drop, List.length_cons] at hlen
      omega
    rw [List.drop_eq_getElem_cons hi] at hus
    obtain ⟨rfl, rfl⟩ := List.cons.inj hus
    exact ⟨_, List.getElem?_eq_getElem hi, (overToken_accepts ht).mp hacc, hs⟩
  · rintro ⟨u, hu, hacc, hs⟩
    obtain ⟨hi, rfl⟩ := List.getElem?_eq_some_iff.mp hu
    exact ⟨_, _, List.drop_eq_getElem_cons hi, (overToken_accepts ht).mpr hacc, hs⟩

theorem left_nil (h : pat1.length ≤ i1) : Left pat1 pat2 i1 i2 ↔ pat2.length ≤ i2 := by
  rw [Left, Overlies, List.drop_eq_nil_of_le h, List.map_nil, matches_nil,
    List.drop_eq_nil_iff]

/-- Tokens without `%` take as many tokens. -/
theorem left_add {n : Nat} (hi : i2 ≤ pat2.length) (hplain : ∀ j < n, pat1[i1 + j]? ≠ some anyRun) (hn : i1 + n ≤ pat1.length)
    (h : Left pat1 pat2 i1 i2) : i2 + n ≤ pat2.length ∧ Left pat1 pat2 (i1 + n) (i2 + n) := by
  induction n with
  | zero => exact ⟨hi, h⟩
  | succ n ih =>
      obtain ⟨hle, hleft⟩ := ih (fun j hj => hplain j (Nat.lt_succ_of_lt hj)) (by omega)
      have hlt : i1 + n < pat1.length := by omega
      have hget := List.getElem?_eq_getElem hlt
      have hne : pat1[i1 + n] ≠ anyRun := fun heq =>
        hplain n (Nat.lt_succ_self n) (hget.trans (congrArg some heq))
      obtain ⟨u, hu, -, hnext⟩ := (left_token hget hne).mp hleft
      have hlt2 := (List.getElem?_eq_some_iff.mp hu).1
      exact ⟨by omega, hnext⟩

/-- The present position leads to the end, or the last `%` could have taken more. -/
def Live (pat1 pat2 : List JsString) (backtrack : Option (Nat × Nat)) (i1 i2 : Nat) : Prop :=
  Left pat1 pat2 i1 i2 ∨ ∃ b1 b2, backtrack = some (b1, b2)
    ∧ ∃ k, 1 ≤ k ∧ b2 + k ≤ pat2.length ∧ Left pat1 pat2 (b1 + 1) (b2 + k)

/-- The tokens since the last `%` have taken one token each. -/
def Tracked (pat1 pat2 : List JsString) (backtrack : Option (Nat × Nat)) (i1 i2 : Nat) : Prop :=
  i1 ≤ pat1.length ∧ i2 ≤ pat2.length ∧ ∀ b1 b2, backtrack = some (b1, b2) →
    b2 ≤ i2 ∧ b1 + 1 + (i2 - b2) = i1 ∧ ∀ j, b1 < j → j < i1 → pat1[j]? ≠ some anyRun

/-- At another `%` what the last one could have taken no longer matters. -/
theorem run_spec (ht : Tracked pat1 pat2 backtrack i1 i2) (h : pat1[i1]? = some anyRun) :
    Tracked pat1 pat2 (some (i1, i2)) (i1 + 1) i2
      ∧ (Live pat1 pat2 backtrack i1 i2 ↔ Live pat1 pat2 (some (i1, i2)) (i1 + 1) i2) := by
  obtain ⟨h1, h2, hback⟩ := ht
  have hlt := (List.getElem?_eq_some_iff.mp h).1
  have hrun := @left_run pat1 pat2 i1 i2 h h2
  constructor
  · refine ⟨hlt, h2, ?_⟩
    rintro b1 b2 ⟨⟩
    exact ⟨Nat.le_refl _, by omega, fun j hj hj' => by omega⟩
  · have hsplit : Live pat1 pat2 (some (i1, i2)) (i1 + 1) i2 ↔ Left pat1 pat2 i1 i2 := by
      rw [hrun]
      constructor
      · rintro (hleft | ⟨b1, b2, ⟨⟩, k, -, hk, hleft⟩)
        · exact ⟨0, h2, hleft⟩
        · exact ⟨k, hk, hleft⟩
      · rintro ⟨k, hk, hleft⟩
        cases k with
        | zero => exact Or.inl hleft
        | succ k => exact Or.inr ⟨i1, i2, rfl, k + 1, by omega, hk, hleft⟩
    rw [hsplit]
    refine ⟨fun hlive => ?_, Or.inl⟩
    rcases hlive with hleft | ⟨b1, b2, rfl, k, hk1, hk, hleft⟩
    · exact hleft
    · obtain ⟨hb, hpos, hplain⟩ := hback b1 b2 rfl
      obtain ⟨hle, hlast⟩ := @left_add pat1 pat2 (b1 + 1) (b2 + k) (i2 - b2) hk
        (fun j hj => hplain _ (by omega) (by omega)) (by omega) hleft
      rw [hpos] at hlast
      -- the `%` here takes the difference
      obtain ⟨m, hm, hrest⟩ := (@left_run pat1 pat2 i1 _ h hle).mp hlast
      exact hrun.mpr ⟨(b2 + k + (i2 - b2)) - i2 + m, by omega, by
        rwa [show i2 + (b2 + k + (i2 - b2) - i2 + m) = b2 + k + (i2 - b2) + m by omega]⟩

/-- The `%` tokens that the inner loop skips. -/
def skipped (pat1 : List JsString) (i1 : Nat) : Nat :=
  ((pat1.drop i1).takeWhile (· = anyRun)).length

theorem drop_skipped (pat1 : List JsString) (i1 : Nat) : pat1.drop i1
    = (pat1.drop i1).takeWhile (· = anyRun) ++ (pat1.drop i1).dropWhile (· = anyRun) :=
  List.takeWhile_append_dropWhile.symm

theorem skipped_run {j : Nat} (hj : j < skipped pat1 i1) : pat1[i1 + j]? = some anyRun := by
  have hmem := List.mem_takeWhile_imp (List.getElem_mem hj)
  rw [← List.getElem?_drop, drop_skipped, List.getElem?_append_left hj,
    List.getElem?_eq_getElem hj, of_decide_eq_true hmem]

theorem skipped_stop (pat1 : List JsString) (i1 : Nat) :
    pat1[i1 + skipped pat1 i1]? ≠ some anyRun := by
  have hhead := List.head?_dropWhile_not (fun t => decide (t = anyRun)) (pat1.drop i1)
  rw [← List.getElem?_drop, drop_skipped, skipped, List.getElem?_append_right (Nat.le_refl _),
    Nat.sub_self, ← List.head?_eq_getElem?]
  intro h
  rw [h] at hhead
  simp at hhead

theorem skip_spec (n : Nat) (ht : Tracked pat1 pat2 backtrack i1 i2)
    (h : ∀ j < n, pat1[i1 + j]? = some anyRun) :
    let backtrack' := if n = 0 then backtrack else some (i1 + n - 1, i2)
    Tracked pat1 pat2 backtrack' (i1 + n) i2
      ∧ (Live pat1 pat2 backtrack i1 i2 ↔ Live pat1 pat2 backtrack' (i1 + n) i2) := by
  induction n with
  | zero => exact ⟨ht, Iff.rfl⟩
  | succ n ih =>
      obtain ⟨htn, hlive⟩ := ih fun j hj => h j (Nat.lt_succ_of_lt hj)
      obtain ⟨htn', hlive'⟩ := run_spec htn (h n (Nat.lt_succ_self n))
      exact ⟨htn', hlive.trans hlive'⟩

/-- The rest of a round, once the `%` tokens are skipped. -/
def compareLoop (pat1 pat2 : List JsString) (fuel : Nat) (backtrack : Option (Nat × Nat))
    (i1 i2 : Nat) : Option Bool :=
  match pat2[i2]? with
  | none => some (decide (pat1.length ≤ i1))
  | some c2 =>
      if pat1[i1]? = some c2 ∨ pat1[i1]? = some anyOne then
        likeImpliesLoop pat1 pat2 fuel backtrack (i1 + 1) (i2 + 1)
      else
        match backtrack with
        | none => some false
        | some (b1, b2) => likeImpliesLoop pat1 pat2 fuel (some (b1, b2 + 1)) (b1 + 1) (b2 + 1)

theorem likeImpliesLoop_succ (fuel : Nat) : likeImpliesLoop pat1 pat2 (fuel + 1) backtrack i1 i2
    = compareLoop pat1 pat2 fuel
        (if skipped pat1 i1 = 0 then backtrack else some (i1 + skipped pat1 i1 - 1, i2))
        (i1 + skipped pat1 i1) i2 := rfl

/-- What a comparison can do. -/
inductive Compares (pat1 pat2 : List JsString) (backtrack : Option (Nat × Nat)) (i1 i2 : Nat) :
    (Nat → Option Bool) → Prop
  | finish (h : pat2.length = i2) :
      Compares pat1 pat2 backtrack i1 i2 fun _ => some (decide (pat1.length ≤ i1))
  | advance {c1 c2} (h1 : pat1[i1]? = some c1) (h2 : pat2[i2]? = some c2)
      (h : c1 = c2 ∨ c1 = anyOne) : Compares pat1 pat2 backtrack i1 i2 fun fuel =>
        likeImpliesLoop pat1 pat2 fuel backtrack (i1 + 1) (i2 + 1)
  | fail (h : ¬ Left pat1 pat2 i1 i2) (hback : backtrack = none) :
      Compares pat1 pat2 backtrack i1 i2 fun _ => some false
  | retry {b1 b2} (h : ¬ Left pat1 pat2 i1 i2) (hi : i2 < pat2.length)
      (hback : backtrack = some (b1, b2)) : Compares pat1 pat2 backtrack i1 i2 fun fuel =>
        likeImpliesLoop pat1 pat2 fuel (some (b1, b2 + 1)) (b1 + 1) (b2 + 1)

theorem compareLoop_compares (hi : i2 ≤ pat2.length) (hstop : pat1[i1]? ≠ some anyRun) :
    Compares pat1 pat2 backtrack i1 i2 fun fuel => compareLoop pat1 pat2 fuel backtrack i1 i2 := by
  unfold compareLoop
  cases h2 : pat2[i2]? with
  | none =>
      have hend := List.getElem?_eq_none_iff.mp h2
      exact .finish (Nat.le_antisymm hend hi)
  | some c2 =>
      have hlt := (List.getElem?_eq_some_iff.mp h2).1
      by_cases h : pat1[i1]? = some c2 ∨ pat1[i1]? = some anyOne
      · simp only [if_pos h]
        cases h1 : pat1[i1]? with
        | none => simp [h1] at h
        | some c1 =>
            refine .advance h1 h2 ?_
            rw [h1] at h
            exact h.imp Option.some.inj Option.some.inj
      · simp only [if_neg h]
        have hnot : ¬ Left pat1 pat2 i1 i2 := by
          cases h1 : pat1[i1]? with
          | none =>
              rw [left_nil (List.getElem?_eq_none_iff.mp h1)]
              exact Nat.not_le.mpr hlt
          | some c1 =>
              have hne : c1 ≠ anyRun := fun heq => hstop (h1.trans (congrArg some heq))
              rw [left_token h1 hne]
              rintro ⟨u, hu, hacc, -⟩
              cases Option.some.inj (h2.symm.trans hu)
              rw [h1] at h
              exact h (hacc.imp (congrArg some) (congrArg some))
        cases backtrack with
        | none => exact .fail hnot rfl
        | some b => exact .retry hnot hlt rfl

theorem tracked_advance (ht : Tracked pat1 pat2 backtrack i1 i2) (h1 : i1 < pat1.length)
    (h2 : i2 < pat2.length) (hstop : pat1[i1]? ≠ some anyRun) :
    Tracked pat1 pat2 backtrack (i1 + 1) (i2 + 1) := by
  refine ⟨h1, h2, fun b1 b2 hb => ?_⟩
  obtain ⟨hle, hpos, hplain⟩ := ht.2.2 b1 b2 hb
  refine ⟨by omega, by omega, fun j hj hj' => ?_⟩
  rcases Nat.lt_succ_iff_lt_or_eq.mp hj' with hlt | rfl
  · exact hplain j hj hlt
  · exact hstop

theorem tracked_retry {b1 b2 : Nat} (ht : Tracked pat1 pat2 backtrack i1 i2) (h : i2 < pat2.length)
    (hb : backtrack = some (b1, b2)) :
    Tracked pat1 pat2 (some (b1, b2 + 1)) (b1 + 1) (b2 + 1) := by
  obtain ⟨h1, h2, hback⟩ := ht
  obtain ⟨hle, hpos, -⟩ := hback b1 b2 hb
  refine ⟨by omega, by omega, ?_⟩
  rintro c1 c2 ⟨⟩
  exact ⟨Nat.le_refl _, by omega, fun j hj hj' => by omega⟩

/-- The answer says whether an overlay is left. -/
theorem loop_spec (fuel : Nat) {r : Bool} (ht : Tracked pat1 pat2 backtrack i1 i2)
    (h : likeImpliesLoop pat1 pat2 fuel backtrack i1 i2 = some r) :
    r = true ↔ Live pat1 pat2 backtrack i1 i2 := by
  induction fuel generalizing backtrack i1 i2 with
  | zero => cases h
  | succ fuel ih =>
      obtain ⟨hs, hlive⟩ := skip_spec (skipped pat1 i1) ht fun j hj => skipped_run hj
      have hstop := skipped_stop pat1 i1
      rw [likeImpliesLoop_succ] at h
      rw [hlive]
      generalize (if skipped pat1 i1 = 0 then backtrack else some (i1 + skipped pat1 i1 - 1, i2))
        = back at h hs ⊢
      generalize i1 + skipped pat1 i1 = i at h hs hstop ⊢
      have hcompare := @compareLoop_compares pat1 pat2 back i i2 hs.2.1 hstop
      generalize hf : (fun fuel => compareLoop pat1 pat2 fuel back i i2) = f at hcompare
      rw [congrFun hf fuel] at h
      obtain ⟨hi1, hi2, hback⟩ := hs
      cases hcompare with
      | finish hend =>
          have hr : decide (pat1.length ≤ i) = r := Option.some.inj h
          rw [← hr, decide_eq_true_eq]
          constructor
          · exact fun hle => Or.inl ((left_nil hle).mpr (Nat.le_of_eq hend))
          · rintro (hleft | ⟨b1, b2, rfl, k, hk1, hk, hleft⟩)
            · by_contra hlt
              have hget := List.getElem?_eq_getElem (Nat.lt_of_not_le hlt)
              obtain ⟨u, hu, -⟩ := (left_token hget fun heq =>
                hstop (hget.trans (congrArg some heq))).mp hleft
              have := (List.getElem?_eq_some_iff.mp hu).1
              omega
            · -- more tokens are wanted than are left
              obtain ⟨hb, hpos, hplain⟩ := hback b1 b2 rfl
              have := (left_add (n := i2 - b2) hk (fun j hj => hplain _ (by omega) (by omega))
                (by omega) hleft).1
              omega
      | @advance c1 c2 h1 h2 hacc =>
          have hne : c1 ≠ anyRun := fun heq => hstop (h1.trans (congrArg some heq))
          have hlt1 := (List.getElem?_eq_some_iff.mp h1).1
          have hlt2 := (List.getElem?_eq_some_iff.mp h2).1
          have htracked := tracked_advance ⟨hi1, hi2, hback⟩ hlt1 hlt2 hstop
          rw [ih htracked h]
          refine or_congr_left ?_
          rw [left_token h1 hne]
          exact ⟨fun hleft => ⟨c2, h2, hacc, hleft⟩, fun ⟨_, _, _, hleft⟩ => hleft⟩
      | fail hnot hnone =>
          have hr : false = r := Option.some.inj h
          subst hr hnone
          refine ⟨fun hfalse => (nomatch hfalse), ?_⟩
          rintro (hleft | ⟨b1, b2, hb, -⟩)
          · exact absurd hleft hnot
          · cases hb
      | @retry b1 b2 hnot hlt hsome =>
          obtain ⟨hle, hpos, hplain⟩ := hback b1 b2 hsome
          have htracked := tracked_retry ⟨hi1, hi2, hback⟩ hlt hsome
          rw [ih htracked h]
          constructor
          · rintro (hleft | ⟨c1, c2, hc, k, hk1, hk, hleft⟩)
            · exact Or.inr ⟨b1, b2, hsome, 1, le_rfl, by omega, hleft⟩
            · cases hc
              exact Or.inr ⟨b1, b2, hsome, k + 1, by omega, by omega, by
                rwa [show b2 + (k + 1) = b2 + 1 + k by omega]⟩
          · rintro (hleft | ⟨c1, c2, hc, k, hk1, hk, hleft⟩)
            · exact absurd hleft hnot
            · obtain ⟨rfl, rfl⟩ := Prod.mk.inj (Option.some.inj (hsome.symm.trans hc))
              obtain ⟨k, rfl⟩ := Nat.exists_eq_add_of_le hk1
              cases k with
              | zero => exact Or.inl hleft
              | succ k => exact Or.inr ⟨b1, b2 + 1, rfl, k + 1, by omega, by omega, by
                  rwa [show b2 + 1 + (k + 1) = b2 + (1 + (k + 1)) by omega]⟩

/-- What is left to do: positions of the last `%` first, then tokens of `pat1`. -/
def remaining (pat1 pat2 : List JsString) (backtrack : Option (Nat × Nat)) (i1 : Nat) : Nat :=
  (pat2.length + 1 - (backtrack.map Prod.snd).getD 0) * (pat1.length + 2) + (pat1.length + 1 - i1)

theorem remaining_skip (ht : Tracked pat1 pat2 backtrack i1 i2) (n : Nat) :
    remaining pat1 pat2 (if n = 0 then backtrack else some (i1 + n - 1, i2)) (i1 + n)
      ≤ remaining pat1 pat2 backtrack i1 := by
  refine Nat.add_le_add (Nat.mul_le_mul_right _ (Nat.sub_le_sub_left ?_ _)) (by omega)
  split_ifs with hn
  · exact Nat.le_refl _
  · cases backtrack with
    | none => exact Nat.zero_le _
    | some b => exact (ht.2.2 b.1 b.2 rfl).1

theorem loop_ends (fuel : Nat) (ht : Tracked pat1 pat2 backtrack i1 i2)
    (h : remaining pat1 pat2 backtrack i1 < fuel) :
    likeImpliesLoop pat1 pat2 fuel backtrack i1 i2 ≠ none := by
  induction fuel generalizing backtrack i1 i2 with
  | zero => exact absurd h (Nat.not_lt_zero _)
  | succ fuel ih =>
      obtain ⟨hs, -⟩ := skip_spec (skipped pat1 i1) ht fun j hj => skipped_run hj
      have hstop := skipped_stop pat1 i1
      have hless := remaining_skip ht (skipped pat1 i1)
      rw [likeImpliesLoop_succ]
      generalize (if skipped pat1 i1 = 0 then backtrack else some (i1 + skipped pat1 i1 - 1, i2))
        = back at hs hless ⊢
      generalize i1 + skipped pat1 i1 = i at hs hstop hless ⊢
      have hcompare := @compareLoop_compares pat1 pat2 back i i2 hs.2.1 hstop
      generalize hf : (fun fuel => compareLoop pat1 pat2 fuel back i i2) = f at hcompare
      rw [congrFun hf fuel]
      obtain ⟨hi1, hi2, hback⟩ := hs
      cases hcompare with
      | finish hend => exact Option.some_ne_none _
      | fail hnot hnone => exact Option.some_ne_none _
      | @advance c1 c2 h1 h2 hacc =>
          have hlt1 := (List.getElem?_eq_some_iff.mp h1).1
          have hlt2 := (List.getElem?_eq_some_iff.mp h2).1
          refine ih (tracked_advance ⟨hi1, hi2, hback⟩ hlt1 hlt2 hstop) ?_
          simp only [remaining] at h hless ⊢
          omega
      | @retry b1 b2 hnot hlt hsome =>
          obtain ⟨hle, hpos, -⟩ := hback b1 b2 hsome
          refine ih (tracked_retry ⟨hi1, hi2, hback⟩ hlt hsome) ?_
          subst hsome
          simp only [remaining, Option.map_some, Option.getD_some] at h hless ⊢
          have hmul : (pat2.length + 1 - b2) * (pat1.length + 2)
              = (pat2.length + 1 - (b2 + 1)) * (pat1.length + 2) + (pat1.length + 2) := by
            rw [← Nat.succ_mul]
            congr 1
            omega
          omega

theorem likeImplies_loop (pat1 pat2 : List JsString) :
    likeImpliesLoop pat1 pat2 (likeImpliesFuel pat1 pat2) none 0 0
      = some (likeImplies pat1 pat2) := by
  have ht : Tracked pat1 pat2 none 0 0 := ⟨Nat.zero_le _, Nat.zero_le _, fun _ _ h => nomatch h⟩
  have hne := loop_ends (likeImpliesFuel pat1 pat2) ht (by
    simp only [remaining, likeImpliesFuel, Option.map_none, Option.getD_none, Nat.sub_zero]
    rw [Nat.mul_comm (pat1.length + 2), Nat.add_mul, Nat.add_mul pat2.length 2]
    omega)
  obtain ⟨r, hr⟩ := Option.ne_none_iff_exists'.mp hne
  rw [likeImplies, hr]
  rfl

theorem likeImplies_iff (pat1 pat2 : List JsString) :
    likeImplies pat1 pat2 = true ↔ Overlies pat1 pat2 := by
  have ht : Tracked pat1 pat2 none 0 0 := ⟨Nat.zero_le _, Nat.zero_le _, fun _ _ h => nomatch h⟩
  rw [loop_spec _ ht (likeImplies_loop pat1 pat2)]
  constructor
  · rintro (hleft | ⟨b1, b2, hb, -⟩)
    · exact hleft
    · cases hb
  · exact fun h => Or.inl h

/-- `likeImplies` answers, and a positive answer is right exactly when a `_` that
lies on a `%` can be done without. -/
theorem likeImplies_sound_iff (pat1 pat2 : JsString) (esc1 esc2 : Option JsString) :
    let p1 := parseLikePattern pat1 esc1
    let p2 := parseLikePattern pat2 esc2
    likeImpliesLoop p1 p2 (likeImpliesFuel p1 p2) none 0 0 = some (likeImplies p1 p2)
    ∧ ((likeImplies p1 p2 = true → ∀ s, Matches p2 s → Matches p1 s)
      ↔ (Overlies p1 p2 → Covers (p1.map token) (p2.map token))) := by
  intro p1 p2
  refine ⟨likeImplies_loop p1 p2, ?_⟩
  rw [likeImplies_iff, covers_iff]
  exact Iff.rfl

/-- A `_` is taken for a pattern with all texts of `%`. -/
theorem likeImplies_unsound : ¬ ∀ (pat1 pat2 : JsString) (esc1 esc2 : Option JsString),
    likeImplies (parseLikePattern pat1 esc1) (parseLikePattern pat2 esc2) = true →
    ∀ s, Matches (parseLikePattern pat2 esc2) s → Matches (parseLikePattern pat1 esc1) s := by
  intro h
  have hempty := h (js "_") (js "%") none none (by decide) [] (.skip .nil)
  cases hempty

end Like

end GenieAcs
