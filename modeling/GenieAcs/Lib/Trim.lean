import Mathlib.Data.List.DropRight

/-!
# Trimming lists

What is left of a list when the elements with a property are dropped at both ends is
trimmed, and what is trimmed comes back when such elements are put around it.
-/

namespace GenieAcs

namespace Trim

variable {α : Type} {p : α → Bool} {s : List α}

/-- Neither end has the property. -/
def Trimmed (p : α → Bool) (s : List α) : Prop := s.dropWhile p = s ∧ s.rdropWhile p = s

instance [DecidableEq α] (p : α → Bool) (s : List α) : Decidable (Trimmed p s) :=
  inferInstanceAs (Decidable (_ ∧ _))

theorem trimmed_nil : Trimmed p [] := ⟨rfl, rfl⟩

theorem Trimmed.head {a : α} (h : Trimmed p (a :: s)) : p a = false := by
  rw [← Bool.not_eq_true]
  intro ha
  have hdrop := h.1
  rw [List.dropWhile_cons_of_pos ha] at hdrop
  have hlen := (List.dropWhile_suffix p (l := s)).length_le
  rw [hdrop, List.length_cons] at hlen
  omega

theorem trimmed_trim (s : List α) : Trimmed p ((s.dropWhile p).rdropWhile p) := by
  refine ⟨?_, List.rdropWhile_idempotent _ _⟩
  obtain ⟨t, ht⟩ := List.rdropWhile_prefix p (l := s.dropWhile p)
  cases hs : (s.dropWhile p).rdropWhile p with
  | nil => rfl
  | cons a r =>
      rw [hs] at ht
      have hdrop : (s.dropWhile p).dropWhile p = s.dropWhile p := List.dropWhile_idempotent p s
      rw [← ht, List.cons_append] at hdrop
      refine List.dropWhile_cons_of_neg fun ha => ?_
      rw [List.dropWhile_cons_of_pos ha] at hdrop
      have hlen := (List.dropWhile_suffix p (l := r ++ t)).length_le
      rw [hdrop, List.length_cons] at hlen
      omega

theorem dropWhile_pad {u : List α} (hu : ∀ a ∈ u, p a = true) (s : List α) :
    (u ++ s).dropWhile p = s.dropWhile p := by
  induction u with
  | nil => rfl
  | cons a u ih =>
      obtain ⟨ha, hu⟩ := List.forall_mem_cons.mp hu
      rw [List.cons_append, List.dropWhile_cons_of_pos ha, ih hu]

theorem rdropWhile_pad {v : List α} (hv : ∀ a ∈ v, p a = true) (s : List α) :
    (s ++ v).rdropWhile p = s.rdropWhile p := by
  rw [List.rdropWhile, List.rdropWhile, List.reverse_append,
    dropWhile_pad fun a ha => hv a (List.mem_reverse.mp ha)]

theorem trim_pad {u v : List α} (hu : ∀ a ∈ u, p a = true) (hv : ∀ a ∈ v, p a = true)
    (hs : Trimmed p s) : ((u ++ s ++ v).dropWhile p).rdropWhile p = s := by
  rw [List.append_assoc, dropWhile_pad hu]
  cases s with
  | nil =>
      have hnil : v.dropWhile p = [] := List.dropWhile_eq_nil_iff.mpr hv
      rw [List.nil_append, hnil]
      rfl
  | cons a s =>
      rw [List.cons_append, List.dropWhile_cons_of_neg (by simp [hs.head]), ← List.cons_append,
        rdropWhile_pad hv]
      exact hs.2

end Trim

end GenieAcs
