import Mathlib.Data.List.Lex
import Mathlib.Data.List.Sort
import GenieAcs.JsNumbers

/-!
# The order of instances

Paths are sorted by the first segment in which they differ: two numbers by their
values, all else as texts. The two orders do not fit together, so this is an
order on some sets of paths only. `Unambiguous` says on which, by the segments
that follow a common beginning.
-/

namespace GenieAcs

/-- The value of a segment that is a number: `parseInt` reads all of it. -/
def numeric (a : JsString) : JsNumber :=
  if JsNumber.parseInt a = JsNumber.ofText a then JsNumber.ofText a else none

/-- How the sort compares two segments that differ. -/
def compareSegments (a b : JsString) : Ordering :=
  match numeric a, numeric b with
  | some ia, some ib => if ia < ib then .lt else if ib < ia then .gt else .eq
  | _, _ => if a < b then .lt else .gt

/-- The comparison that `unpack` sorts by. -/
def comparePaths : Path → Path → Ordering
  | a :: p1, b :: p2 => if a = b then comparePaths p1 p2 else compareSegments a b
  | [], _ => .eq
  | _ :: _, [] => .gt

/-- The sort keeps `p1` in front of `p2`. -/
def notAfter (p1 p2 : Path) : Prop := comparePaths p1 p2 ≠ .gt

instance : DecidableRel notAfter := fun p1 p2 =>
  inferInstanceAs (Decidable (comparePaths p1 p2 ≠ .gt))

def sortPaths (allMatches : List Path) : List Path := allMatches.insertionSort notAfter

theorem sortPaths_perm (allMatches : List Path) : (sortPaths allMatches).Perm allMatches :=
  List.perm_insertionSort notAfter allMatches

/-- A strict weak order in which only equal paths compare equal. -/
structure Ordered (S : Set Path) : Prop where
  swap : ∀ p ∈ S, ∀ q ∈ S, comparePaths q p = (comparePaths p q).swap
  trans : ∀ p ∈ S, ∀ q ∈ S, ∀ r ∈ S, comparePaths p q = .lt → comparePaths q r = .lt →
    comparePaths p r = .lt
  eq : ∀ p ∈ S, ∀ q ∈ S, comparePaths p q = .eq → p = q

/-- `a` follows `u` in a path of the set. -/
def Next (S : Set Path) (u : Path) (a : JsString) : Prop := ∃ p ∈ S, u ++ [a] <+: p

/-- No two numbers that follow the same segments have one value, and no text
stands between two of them whose values are the other way around. -/
structure Unambiguous (S : Set Path) : Prop where
  values : ∀ u a b, Next S u a → Next S u b → numeric a ≠ none → numeric a = numeric b → a = b
  texts : ∀ u a b c x y, Next S u a → Next S u b → Next S u c → numeric a = some x →
    numeric b = some y → x < y → numeric c = none → b < c → ¬ c < a

/-! ## Segments -/

section Segments

variable {a b c : JsString}

theorem compareSegments_numbers {x y : WithBot (WithTop ℚ)} (ha : numeric a = some x)
    (hb : numeric b = some y) : compareSegments a b = .lt ↔ x < y := by
  rw [compareSegments, ha, hb]
  show (if x < y then Ordering.lt else if y < x then .gt else .eq) = .lt ↔ x < y
  split_ifs with h1 h2 <;> simp [h1]

theorem compareSegments_text (h : numeric a = none ∨ numeric b = none) :
    compareSegments a b = if a < b then .lt else .gt := by
  rw [compareSegments]
  rcases h with ha | hb
  · rw [ha]
  · rw [hb]
    cases numeric a <;> rfl

theorem compareSegments_text_lt (h : numeric a = none ∨ numeric b = none) :
    compareSegments a b = .lt ↔ a < b := by
  rw [compareSegments_text h]
  split_ifs with hlt <;> simp [hlt]

theorem compareSegments_swap (hne : a ≠ b) :
    compareSegments b a = (compareSegments a b).swap := by
  by_cases h : numeric a = none ∨ numeric b = none
  · rw [compareSegments_text h, compareSegments_text h.symm]
    rcases lt_trichotomy a b with hlt | heq | hgt
    · rw [if_pos hlt, if_neg (lt_asymm hlt)]
      rfl
    · exact absurd heq hne
    · rw [if_pos hgt, if_neg (lt_asymm hgt)]
      rfl
  · obtain ⟨ha, hb⟩ := not_or.mp h
    obtain ⟨x, hx⟩ := Option.ne_none_iff_exists'.mp ha
    obtain ⟨y, hy⟩ := Option.ne_none_iff_exists'.mp hb
    rw [compareSegments, compareSegments, hx, hy]
    show (if y < x then Ordering.lt else if x < y then .gt else .eq)
      = (if x < y then Ordering.lt else if y < x then .gt else .eq).swap
    rcases lt_trichotomy x y with hlt | rfl | hgt
    · rw [if_neg (lt_asymm hlt), if_pos hlt, if_pos hlt]
      rfl
    · rw [if_neg (lt_irrefl x), if_neg (lt_irrefl x)]
      rfl
    · rw [if_pos hgt, if_neg (lt_asymm hgt), if_pos hgt]
      rfl

theorem compareSegments_eq (h : compareSegments a b = .eq) :
    numeric a ≠ none ∧ numeric a = numeric b := by
  rw [compareSegments] at h
  split at h
  · rename_i x y hx hy
    rw [hx, hy]
    refine ⟨Option.some_ne_none x, congrArg some ?_⟩
    rcases lt_trichotomy x y with hlt | heq | hgt
    · rw [if_pos hlt] at h
      cases h
    · exact heq
    · rw [if_neg (lt_asymm hgt), if_pos hgt] at h
      cases h
  · split_ifs at h

/-- The comparison of two numbers of one value. -/
theorem compareSegments_tie (h : numeric a ≠ none) (heq : numeric a = numeric b) :
    compareSegments a b = .eq := by
  obtain ⟨x, hx⟩ := Option.ne_none_iff_exists'.mp h
  rw [compareSegments, ← heq, hx]
  show (if x < x then Ordering.lt else if x < x then .gt else .eq) = .eq
  rw [if_neg (lt_irrefl x), if_neg (lt_irrefl x)]

/-- Three segments are in order as soon as the ways they can fail to be are
ruled out. -/
theorem compareSegments_trans (hne : a ≠ c)
    (hvalues : numeric a ≠ none → numeric a = numeric c → a = c)
    (htexts : ∀ a' b' c' x y, [a', b', c'].Perm [a, b, c] → numeric a' = some x →
      numeric b' = some y → x < y → numeric c' = none → b' < c' → ¬ c' < a')
    (h : compareSegments a b = .lt) (h' : compareSegments b c = .lt) :
    compareSegments a c = .lt := by
  cases ha : numeric a with
  | none =>
      have hab := (compareSegments_text_lt (Or.inl ha)).mp h
      rw [compareSegments_text_lt (Or.inl ha)]
      cases hb : numeric b with
      | none => exact lt_trans hab ((compareSegments_text_lt (Or.inl hb)).mp h')
      | some y =>
          cases hc : numeric c with
          | none => exact lt_trans hab ((compareSegments_text_lt (Or.inr hc)).mp h')
          | some z =>
              have hyz := (compareSegments_numbers hb hc).mp h'
              refine (lt_trichotomy a c).resolve_right (not_or.mpr ⟨hne, fun hca => ?_⟩)
              have hperm : [b, c, a].Perm [a, b, c] := @List.perm_append_comm _ [b, c] [a]
              exact htexts b c a y z hperm hb hc hyz ha hca hab
  | some x =>
      cases hb : numeric b with
      | none =>
          have hab := (compareSegments_text_lt (Or.inr hb)).mp h
          have hbc := (compareSegments_text_lt (Or.inl hb)).mp h'
          cases hc : numeric c with
          | none => exact (compareSegments_text_lt (Or.inr hc)).mpr (lt_trans hab hbc)
          | some z =>
              rw [compareSegments_numbers ha hc]
              refine (lt_trichotomy x z).resolve_right (not_or.mpr ⟨fun heq => ?_, fun hzx => ?_⟩)
              · rw [ha, hc] at hvalues
                exact hne (hvalues (Option.some_ne_none x) (congrArg some heq))
              · have hperm : [c, a, b].Perm [a, b, c] := @List.perm_append_comm _ [c] [a, b]
                exact htexts c a b z x hperm hc ha hzx hb hab hbc
      | some y =>
          have hxy := (compareSegments_numbers ha hb).mp h
          cases hc : numeric c with
          | none =>
              have hbc := (compareSegments_text_lt (Or.inr hc)).mp h'
              rw [compareSegments_text_lt (Or.inr hc)]
              refine (lt_trichotomy a c).resolve_right (not_or.mpr ⟨hne, fun hca => ?_⟩)
              exact htexts a b c x y (List.Perm.refl _) ha hb hxy hc hbc hca
          | some z =>
              rw [compareSegments_numbers ha hc]
              exact lt_trans hxy ((compareSegments_numbers hb hc).mp h')

end Segments

/-! ## Paths -/

section Paths

variable {S : Set Path} {p q r : Path}

theorem comparePaths_same (a : JsString) (p q : Path) :
    comparePaths (a :: p) (a :: q) = comparePaths p q :=
  if_pos rfl

theorem comparePaths_prefix (u : Path) (p q : Path) :
    comparePaths (u ++ p) (u ++ q) = comparePaths p q := by
  induction u with
  | nil => rfl
  | cons f u ih => rw [List.cons_append, List.cons_append, comparePaths_same, ih]

theorem comparePaths_cons {a b : JsString} (hne : a ≠ b) (p q : Path) :
    comparePaths (a :: p) (b :: q) = compareSegments a b := by
  exact if_neg hne

/-- The paths of the set that begin with a segment, without it. -/
def below (S : Set Path) (a : JsString) : Set Path := {p | a :: p ∈ S}

theorem Next.below {a f : JsString} {u : Path} (h : Next (below S a) u f) :
    Next S (a :: u) f := by
  obtain ⟨p, hp, hprefix⟩ := h
  exact ⟨a :: p, hp, List.cons_prefix_cons.mpr ⟨rfl, hprefix⟩⟩

theorem Unambiguous.below (h : Unambiguous S) (a : JsString) : Unambiguous (below S a) where
  values u f g hf hg := h.values (a :: u) f g hf.below hg.below
  texts u f g e x y hf hg he := h.texts (a :: u) f g e x y hf.below hg.below he.below

theorem next_head {a : JsString} (h : a :: p ∈ S) : Next S [] a :=
  ⟨a :: p, h, List.cons_prefix_cons.mpr ⟨rfl, List.nil_prefix⟩⟩

theorem comparePaths_swap (hlen : p.length = q.length) :
    comparePaths q p = (comparePaths p q).swap := by
  induction p generalizing q with
  | nil =>
      obtain rfl : q = [] := List.length_eq_zero_iff.mp hlen.symm
      rfl
  | cons a p ih =>
      cases q with
      | nil => cases hlen
      | cons b q =>
          by_cases hab : a = b
          · subst hab
            rw [comparePaths_same, comparePaths_same]
            exact ih (Nat.succ.inj hlen)
          · rw [comparePaths_cons hab, comparePaths_cons (Ne.symm hab)]
            exact compareSegments_swap hab

theorem Unambiguous.eq (h : Unambiguous S) (hp : p ∈ S) (hq : q ∈ S) (hlen : p.length = q.length)
    (heq : comparePaths p q = .eq) : p = q := by
  induction p generalizing S q with
  | nil => exact (List.length_eq_zero_iff.mp hlen.symm).symm
  | cons a p ih =>
      cases q with
      | nil => cases hlen
      | cons b q =>
          by_cases hab : a = b
          · subst hab
            rw [comparePaths_same] at heq
            rw [ih (h.below a) hp hq (Nat.succ.inj hlen) heq]
          · rw [comparePaths_cons hab] at heq
            obtain ⟨hnum, hsame⟩ := compareSegments_eq heq
            exact absurd (h.values [] a b (next_head hp) (next_head hq) hnum hsame) hab

theorem Unambiguous.trans (h : Unambiguous S) (hp : p ∈ S) (hq : q ∈ S) (hr : r ∈ S)
    (hpq : comparePaths p q = .lt) (hqr : comparePaths q r = .lt) :
    comparePaths p r = .lt := by
  induction p generalizing S q r with
  | nil => cases hpq
  | cons a p ih =>
      cases q with
      | nil => cases hpq
      | cons b q =>
          cases r with
          | nil => cases hqr
          | cons c r =>
              by_cases hab : a = b
              · subst hab
                rw [comparePaths_same] at hpq
                by_cases hac : a = c
                · subst hac
                  rw [comparePaths_same] at hqr ⊢
                  exact ih (h.below a) hp hq hr hpq hqr
                · rw [comparePaths_cons hac] at hqr ⊢
                  exact hqr
              · by_cases hbc : b = c
                · subst hbc
                  rw [comparePaths_cons hab] at hpq ⊢
                  exact hpq
                · rw [comparePaths_cons hab] at hpq
                  rw [comparePaths_cons hbc] at hqr
                  have hac : a ≠ c := by
                    rintro rfl
                    rw [compareSegments_swap hab, hpq] at hqr
                    cases hqr
                  rw [comparePaths_cons hac]
                  have hnext : ∀ f ∈ [a, b, c], Next S [] f := by
                    rintro f (_ | ⟨_, _ | ⟨_, _ | ⟨_, ⟨⟩⟩⟩⟩)
                    · exact next_head hp
                    · exact next_head hq
                    · exact next_head hr
                  refine compareSegments_trans hac
                    (h.values [] a c (next_head hp) (next_head hr)) ?_ hpq hqr
                  intro a' b' c' x y hperm
                  have hmem : ∀ f ∈ [a', b', c'], Next S [] f := fun f hf =>
                    hnext f (hperm.mem_iff.mp hf)
                  exact h.texts [] a' b' c' x y (hmem a' (by simp)) (hmem b' (by simp))
                    (hmem c' (by simp))

theorem Unambiguous.ordered (h : Unambiguous S) {n : Nat} (hlen : ∀ p ∈ S, p.length = n) :
    Ordered S where
  swap p hp q hq := comparePaths_swap ((hlen p hp).trans (hlen q hq).symm)
  trans _ hp _ hq _ hr := h.trans hp hq hr
  eq p hp q hq := h.eq hp hq ((hlen p hp).trans (hlen q hq).symm)

/-- Paths that part at two segments are compared by them. -/
theorem comparePaths_part {a b : JsString} (u s t : Path) (hne : a ≠ b) :
    comparePaths (u ++ [a] ++ s) (u ++ [b] ++ t) = compareSegments a b := by
  rw [List.append_assoc, List.append_assoc, comparePaths_prefix]
  exact comparePaths_cons hne s t

theorem Ordered.unambiguous (h : Ordered S) : Unambiguous S where
  values u a b ha hb hnum hsame := by
    obtain ⟨p, hp, s, rfl⟩ := ha
    obtain ⟨q, hq, t, rfl⟩ := hb
    by_contra hne
    have htie := comparePaths_part u s t hne
    rw [compareSegments_tie hnum hsame] at htie
    have heq := h.eq _ hp _ hq htie
    rw [List.append_assoc, List.append_assoc] at heq
    exact hne (List.cons.inj (List.append_cancel_left heq)).1
  texts u a b c x y ha hb hc hx hy hxy hnum hbc hca := by
    obtain ⟨p, hp, s, rfl⟩ := ha
    obtain ⟨q, hq, t, rfl⟩ := hb
    obtain ⟨r, hr, w, rfl⟩ := hc
    have hab : comparePaths (u ++ [a] ++ s) (u ++ [b] ++ t) = .lt := by
      rw [comparePaths_part u s t (lt_trans hbc hca).ne', compareSegments_numbers hx hy]
      exact hxy
    have hbc' : comparePaths (u ++ [b] ++ t) (u ++ [c] ++ w) = .lt := by
      rw [comparePaths_part u t w hbc.ne, compareSegments_text_lt (Or.inr hnum)]
      exact hbc
    have hac := h.trans _ hp _ hq _ hr hab hbc'
    rw [comparePaths_part u s w hca.ne', compareSegments_text_lt (Or.inr hnum)] at hac
    exact lt_asymm hac hca

end Paths

/-! ## Sorting -/

section Sorting

variable {S : Set Path}

theorem Ordered.notAfter_iff (h : Ordered S) {p q : Path} (hp : p ∈ S) (hq : q ∈ S) :
    notAfter p q ↔ comparePaths p q = .lt ∨ p = q := by
  rw [notAfter]
  constructor
  · intro hne
    cases hcomp : comparePaths p q with
    | lt => exact Or.inl rfl
    | eq => exact Or.inr (h.eq p hp q hq hcomp)
    | gt => exact absurd hcomp hne
  · rintro (hlt | rfl)
    · rw [hlt]
      exact fun hgt => nomatch hgt
    · intro hgt
      have hswap := h.swap p hp p hp
      rw [hgt] at hswap
      cases hswap

theorem Ordered.sortPaths_pairwise (h : Ordered S) {l : List Path} (hl : ∀ p ∈ l, p ∈ S) :
    (sortPaths l).Pairwise notAfter := by
  let r : S → S → Prop := fun p q => notAfter p.1 q.1
  have : DecidableRel r := fun p q => inferInstanceAs (Decidable (notAfter p.1 q.1))
  have : Std.Total r := by
    refine ⟨fun p q => ?_⟩
    show comparePaths p.1 q.1 ≠ .gt ∨ comparePaths q.1 p.1 ≠ .gt
    rw [h.swap p.1 p.2 q.1 q.2]
    cases comparePaths p.1 q.1 <;> simp
  have : IsTrans S r := by
    refine ⟨fun p q t hpq hqt => ?_⟩
    rcases (h.notAfter_iff p.2 q.2).mp hpq with hlt | heq
    · rcases (h.notAfter_iff q.2 t.2).mp hqt with hlt' | heq'
      · exact (h.notAfter_iff p.2 t.2).mpr (Or.inl (h.trans _ p.2 _ q.2 _ t.2 hlt hlt'))
      · exact Subtype.ext heq' ▸ hpq
    · exact Subtype.ext heq ▸ hqt
  have hmap : ((l.attachWith _ hl).insertionSort r).map Subtype.val = sortPaths l := by
    rw [List.map_insertionSort r notAfter Subtype.val _ fun _ _ _ _ => Iff.rfl,
      List.attachWith_map_subtype_val]
    rfl
  rw [← hmap, List.pairwise_map]
  exact List.pairwise_insertionSort r _

/-- Where the comparison is an order, the sort does not depend on the order of
the paths it is given. -/
theorem Ordered.sortPaths_eq (h : Ordered S) {l l' : List Path} (hl : ∀ p ∈ l, p ∈ S)
    (hperm : l.Perm l') : sortPaths l = sortPaths l' := by
  have hl' : ∀ p ∈ l', p ∈ S := fun p hp => hl p (hperm.mem_iff.mpr hp)
  refine List.Perm.eq_of_pairwise (fun p q hp hq hpq hqp => ?_) (h.sortPaths_pairwise hl)
    (h.sortPaths_pairwise hl')
    ((sortPaths_perm l).trans (hperm.trans (sortPaths_perm l').symm))
  have hpS := hl p ((sortPaths_perm l).mem_iff.mp hp)
  have hqS := hl' q ((sortPaths_perm l').mem_iff.mp hq)
  refine ((h.notAfter_iff hpS hqS).mp hpq).resolve_left fun hlt => ?_
  rw [notAfter, h.swap p hpS q hqS, hlt] at hqp
  exact hqp rfl

end Sorting

end GenieAcs
