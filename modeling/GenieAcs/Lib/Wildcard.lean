import Mathlib.Data.List.Basic
import Mathlib.Tactic.Common

/-!
# Patterns with wildcards

A pattern is a list of tokens: a unit stands for itself, `one` for any unit and
`run` for any number of them. `Matches` says which texts a pattern has, and
`Covers` lays one pattern over another so that every text of the second is one
of the first.
-/

namespace GenieAcs

namespace Wildcard

inductive Token (α : Type)
  | run
  | one
  | unit (a : α)
  deriving DecidableEq

/-- The texts of a pattern. -/
inductive Matches {α : Type} : List (Token α) → List α → Prop
  | nil : Matches [] []
  | skip {p s} : Matches p s → Matches (.run :: p) s
  | take {p a s} : Matches (.run :: p) s → Matches (.run :: p) (a :: s)
  | one {p a s} : Matches p s → Matches (.one :: p) (a :: s)
  | unit {p a s} : Matches p s → Matches (.unit a :: p) (a :: s)

/-- A pattern laid over another: `run` takes any tokens and `one` takes a token
other than `run`; next to each other they may change places. -/
inductive Covers {α : Type} : List (Token α) → List (Token α) → Prop
  | nil : Covers [] []
  | skip {p q} : Covers p q → Covers (.run :: p) q
  | take {p c q} : Covers (.run :: p) q → Covers (.run :: p) (c :: q)
  | one {p c q} : c ≠ .run → Covers p q → Covers (.one :: p) (c :: q)
  | unit {p a q} : Covers p q → Covers (.unit a :: p) (.unit a :: q)
  | runFirst (u) {p q} : Covers (u ++ .run :: .one :: p) q → Covers (u ++ .one :: .run :: p) q
  | oneFirst (u) {p q} : Covers (u ++ .one :: .run :: p) q → Covers (u ++ .run :: .one :: p) q

/-- A token other than `run` takes one unit. -/
def Token.Accepts {α : Type} : Token α → α → Prop
  | .run, _ => False
  | .one, _ => True
  | .unit a, b => a = b

variable {α : Type} {p q : List (Token α)} {s t : List α} {a b : α}

/-! ## Matching -/

theorem matches_nil : Matches [] s ↔ s = [] := by
  constructor
  · rintro ⟨⟩
    rfl
  · rintro rfl
    exact .nil

theorem matches_cons {c : Token α} (hc : c ≠ .run) :
    Matches (c :: p) s ↔ ∃ b s', s = b :: s' ∧ c.Accepts b ∧ Matches p s' := by
  constructor
  · intro h
    cases h with
    | skip h => exact absurd rfl hc
    | take h => exact absurd rfl hc
    | one h => exact ⟨_, _, rfl, trivial, h⟩
    | unit h => exact ⟨_, _, rfl, rfl, h⟩
  · rintro ⟨b, s', rfl, hacc, h⟩
    cases c with
    | run => exact absurd rfl hc
    | one => exact .one h
    | unit a =>
        cases (hacc : a = b)
        exact .unit h

theorem matches_run : Matches (.run :: p) s ↔ ∃ u v, s = u ++ v ∧ Matches p v := by
  constructor
  · intro h
    induction s with
    | nil =>
        cases h with
        | skip h => exact ⟨[], [], rfl, h⟩
    | cons a s ih =>
        cases h with
        | skip h => exact ⟨[], _, rfl, h⟩
        | take h =>
            obtain ⟨u, v, rfl, hv⟩ := ih h
            exact ⟨a :: u, v, rfl, hv⟩
  · rintro ⟨u, v, rfl, h⟩
    induction u with
    | nil => exact .skip h
    | cons a u ih => exact .take ih

/-- Units only match themselves. -/
theorem matches_units (w : List α) : Matches (w.map .unit) s ↔ s = w := by
  induction w generalizing s with
  | nil => exact matches_nil
  | cons a w ih =>
      constructor
      · intro h
        cases h with
        | unit h => rw [ih.mp h]
      · rintro rfl
        exact .unit (ih.mpr rfl)

theorem matches_append :
    Matches (p ++ q) s ↔ ∃ u v, s = u ++ v ∧ Matches p u ∧ Matches q v := by
  induction p generalizing s with
  | nil =>
      constructor
      · exact fun h => ⟨[], s, rfl, .nil, h⟩
      · rintro ⟨u, v, rfl, hu, hv⟩
        rw [matches_nil.mp hu]
        exact hv
  | cons c p ih =>
      rw [List.cons_append]
      by_cases hc : c = .run
      · subst hc
        constructor
        · intro h
          obtain ⟨w, v, rfl, hv⟩ := matches_run.mp h
          obtain ⟨u, v, rfl, hu, hv⟩ := ih.mp hv
          exact ⟨w ++ u, v, (List.append_assoc w u v).symm, matches_run.mpr ⟨w, u, rfl, hu⟩, hv⟩
        · rintro ⟨u, v, rfl, hu, hv⟩
          obtain ⟨w, u, rfl, hp⟩ := matches_run.mp hu
          exact matches_run.mpr ⟨w, u ++ v, List.append_assoc w u v, ih.mpr ⟨u, v, rfl, hp, hv⟩⟩
      · constructor
        · intro h
          obtain ⟨b, s, rfl, hacc, hs⟩ := (matches_cons hc).mp h
          obtain ⟨u, v, rfl, hu, hv⟩ := ih.mp hs
          exact ⟨b :: u, v, rfl, (matches_cons hc).mpr ⟨b, u, rfl, hacc, hu⟩, hv⟩
        · rintro ⟨u, v, rfl, hu, hv⟩
          obtain ⟨b, u, rfl, hacc, hp⟩ := (matches_cons hc).mp hu
          exact (matches_cons hc).mpr ⟨b, u ++ v, rfl, hacc, ih.mpr ⟨u, v, rfl, hp, hv⟩⟩

theorem Matches.append (hp : Matches p s) (hq : Matches q t) : Matches (p ++ q) (s ++ t) :=
  matches_append.mpr ⟨s, t, rfl, hp, hq⟩

/-- A pattern that ends in `run` goes on matching. -/
theorem Matches.extend (h : Matches (p ++ [.run]) s) (t : List α) :
    Matches (p ++ [.run]) (s ++ t) := by
  obtain ⟨u, v, rfl, hu, hv⟩ := matches_append.mp h
  rw [List.append_assoc]
  exact hu.append (matches_run.mpr ⟨v ++ t, [], (List.append_nil _).symm, .nil⟩)

theorem Matches.reverse (h : Matches p s) : Matches p.reverse s.reverse := by
  induction h with
  | nil => exact .nil
  | @skip p s h ih =>
      rw [List.reverse_cons, ← List.append_nil s.reverse]
      exact ih.append (.skip .nil)
  | @take p a s h ih =>
      rw [List.reverse_cons] at ih ⊢
      rw [List.reverse_cons]
      exact ih.extend [a]
  | @one p a s h ih =>
      rw [List.reverse_cons, List.reverse_cons]
      exact ih.append (.one .nil)
  | @unit p a s h ih =>
      rw [List.reverse_cons, List.reverse_cons]
      exact ih.append (.unit .nil)

/-- A text has a unit for each token other than `run`. -/
theorem Matches.length_le [DecidableEq α] (h : Matches p s) : (p.filter (· ≠ .run)).length ≤ s.length := by
  induction h with
  | nil => exact Nat.le_refl 0
  | skip h ih => exact ih
  | take h ih => exact Nat.le_succ_of_le ih
  | one h ih => exact Nat.succ_le_succ ih
  | unit h ih => exact Nat.succ_le_succ ih

theorem Matches.length_eq (h : Matches p s) (hp : Token.run ∉ p) : s.length = p.length := by
  induction h with
  | nil => rfl
  | skip h ih => exact absurd List.mem_cons_self hp
  | take h ih => exact absurd List.mem_cons_self hp
  | one h ih => exact congrArg (· + 1) (ih fun hmem => hp (List.mem_cons_of_mem _ hmem))
  | unit h ih => exact congrArg (· + 1) (ih fun hmem => hp (List.mem_cons_of_mem _ hmem))

/-- The tokens before the first `run` take the units at their own positions. -/
theorem Matches.lead [DecidableEq α] (h : Matches p s) {i : Nat} {c : Token α}
    (hc : (p.takeWhile (· ≠ .run))[i]? = some c) : ∃ b, s[i]? = some b ∧ c.Accepts b := by
  induction p generalizing s i with
  | nil => cases hc
  | cons d p ih =>
      by_cases hd : d = .run
      · subst hd
        cases hc
      · obtain ⟨b, s, rfl, hacc, hs⟩ := (matches_cons hd).mp h
        rw [List.takeWhile_cons_of_pos (by simpa using hd)] at hc
        cases i with
        | zero =>
            cases hc
            exact ⟨b, rfl, hacc⟩
        | succ i => exact ih hs hc

/-! ## One pattern over another -/

theorem matches_swap : Matches (.run :: .one :: p) s ↔ Matches (.one :: .run :: p) s := by
  have hone : Token.one ≠ (.run : Token α) := fun h => nomatch h
  constructor
  · intro h
    obtain ⟨u, v, rfl, hv⟩ := matches_run.mp h
    obtain ⟨b, v, rfl, -, hp⟩ := (matches_cons hone).mp hv
    cases u with
    | nil => exact .one (.skip hp)
    | cons a u => exact .one (matches_run.mpr ⟨u ++ [b], v, (List.append_assoc u [b] v).symm, hp⟩)
  · intro h
    obtain ⟨b, v, rfl, -, hv⟩ := (matches_cons hone).mp h
    obtain ⟨u, v, rfl, hp⟩ := matches_run.mp hv
    -- the unit of `one` is the last one before the rest
    rcases List.eq_nil_or_concat u with rfl | ⟨u, c, rfl⟩
    · exact .skip (.one hp)
    · refine matches_run.mpr ⟨b :: u, c :: v, ?_, .one hp⟩
      rw [List.concat_eq_append, List.append_assoc]
      rfl

theorem matches_swap_at (u : List (Token α)) :
    Matches (u ++ .run :: .one :: p) s ↔ Matches (u ++ .one :: .run :: p) s := by
  rw [matches_append, matches_append]
  exact exists₂_congr fun x y => and_congr_right' (and_congr_right' matches_swap)

theorem Covers.append {p' q' : List (Token α)} (h : Covers p q) (h' : Covers p' q') :
    Covers (p ++ p') (q ++ q') := by
  induction h with
  | nil => exact h'
  | skip h ih => exact .skip ih
  | take h ih => exact .take ih
  | one hc h ih => exact .one hc ih
  | unit h ih => exact .unit ih
  | runFirst u h ih =>
      rw [List.append_assoc] at ih ⊢
      exact .runFirst u ih
  | oneFirst u h ih =>
      rw [List.append_assoc] at ih ⊢
      exact .oneFirst u ih

theorem Covers.sound (h : Covers p q) (hs : Matches q s) : Matches p s := by
  induction h generalizing s with
  | nil => exact hs
  | skip h ih => exact .skip (ih hs)
  | take h ih =>
      rw [← List.singleton_append] at hs
      obtain ⟨u, v, rfl, -, hv⟩ := matches_append.mp hs
      obtain ⟨w, v, rfl, hp⟩ := matches_run.mp (ih hv)
      exact matches_run.mpr ⟨u ++ w, v, (List.append_assoc u w v).symm, hp⟩
  | one hc h ih =>
      obtain ⟨b, s, rfl, -, hs⟩ := (matches_cons hc).mp hs
      exact .one (ih hs)
  | unit h ih =>
      cases hs with
      | unit hs => exact .unit (ih hs)
  | runFirst u h ih => exact (matches_swap_at u).mp (ih hs)
  | oneFirst u h ih => exact (matches_swap_at u).mpr (ih hs)

end Wildcard

end GenieAcs
