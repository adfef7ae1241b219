import Mathlib.Tactic.Common

/-!
# Named brackets

A list of opening, closing and empty brackets is followed with the names that are open.
It stops at the first closing bracket that does not name the last one opened.
-/

namespace GenieAcs

inductive Bracket (α : Type) where
  | opening (a : α)
  | empty (a : α)
  | closing (a : α)

namespace Bracket

variable {α : Type} [DecidableEq α]

/-- The names that are open after a bracket, the last one first. -/
def step : List α → Bracket α → Option (List α)
  | names, .opening a => some (a :: names)
  | names, .empty _ => some names
  | [], .closing _ => none
  | b :: names, .closing a => if b = a then some names else none

def follow (names : List α) (bs : List (Bracket α)) : Option (List α) := bs.foldlM step names

/-- Every closing bracket names the last one that is open, and none is left open. -/
def Balanced (bs : List (Bracket α)) : Prop := follow [] bs = some []

/-- The brackets up to the first that does not fit, that one, and those after it. -/
structure Stuck (names : List α) (bs : List (Bracket α)) where
  before : List (Bracket α)
  names' : List α
  b : Bracket α
  after : List (Bracket α)
  eq : bs = before ++ b :: after
  follow : follow names before = some names'
  step : step names' b = none

variable {names names' : List α} {b : Bracket α} {bs bs' : List (Bracket α)}

theorem follow_cons : follow names (b :: bs) = (step names b).bind (follow · bs) := rfl

theorem follow_append : follow names (bs ++ bs') = (follow names bs).bind (follow · bs') :=
  List.foldlM_append

theorem follow_cons_of_step (h : step names b = some names') :
    follow names (b :: bs) = follow names' bs := by
  rw [follow_cons, h]
  rfl

theorem stuck_of_follow (h : follow names bs = none) : Nonempty (Stuck names bs) := by
  induction bs generalizing names with
  | nil => cases h
  | cons b bs ih =>
      cases hb : step names b with
      | none => exact ⟨⟨[], names, b, bs, rfl, rfl, hb⟩⟩
      | some names' =>
          rw [follow_cons_of_step hb] at h
          obtain ⟨k⟩ := ih h
          refine ⟨⟨b :: k.before, k.names', k.b, k.after, ?_, ?_, k.step⟩⟩
          · rw [List.cons_append, ← k.eq]
          · rw [follow_cons_of_step hb, k.follow]

theorem Stuck.follow_eq_none (k : Stuck names bs) : Bracket.follow names bs = none := by
  rw [k.eq, follow_append, k.follow, Option.bind_some, follow_cons, k.step]
  rfl

/-- A list gets stuck in one place. -/
theorem Stuck.unique (k : Stuck names bs) {before after : List (Bracket α)}
    (eq : bs = before ++ b :: after) (hf : Bracket.follow names before = some names')
    (hb : Bracket.step names' b = none) :
    k.before = before ∧ k.names' = names' ∧ k.b = b ∧ k.after = after := by
  obtain ⟨before₁, names₁, b₁, after₁, eq₁, hf₁, hb₁⟩ := k
  subst eq₁
  induction before₁ generalizing names before with
  | nil =>
      cases hf₁
      cases before with
      | nil =>
          cases hf
          obtain ⟨rfl, rfl⟩ := List.cons.inj eq
          exact ⟨rfl, rfl, rfl, rfl⟩
      | cons b₂ before =>
          obtain ⟨rfl, -⟩ := List.cons.inj eq
          rw [follow_cons, hb₁] at hf
          cases hf
  | cons b₀ before₁ ih =>
      cases before with
      | nil =>
          cases hf
          obtain ⟨rfl, -⟩ := List.cons.inj eq
          rw [follow_cons, hb] at hf₁
          cases hf₁
      | cons b₂ before =>
          obtain ⟨rfl, htail⟩ := List.cons.inj eq
          rw [follow_cons] at hf hf₁
          obtain ⟨names₂, hs, hf⟩ := Option.bind_eq_some_iff.mp hf
          rw [hs] at hf₁
          obtain ⟨rfl, h⟩ := ih hf hf₁ htail
          exact ⟨rfl, h⟩

end Bracket

end GenieAcs
