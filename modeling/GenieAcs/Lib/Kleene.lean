import Mathlib.Data.List.Basic
import Mathlib.Tactic.Common

/-!
# Three-valued logic

A truth value is true, false or unknown (`none`). A conjunction is false as
soon as one conjunct is, and otherwise unknown as soon as one is; dually for a
disjunction.
-/

namespace GenieAcs

namespace Kleene

def neg (t : Option Bool) : Option Bool := t.map (!·)

def all (ts : List (Option Bool)) : Option Bool :=
  if some false ∈ ts then some false else if none ∈ ts then none else some true

def any (ts : List (Option Bool)) : Option Bool :=
  if some true ∈ ts then some true else if none ∈ ts then none else some false

/-- A truth value is given by when it is true and when it is false. -/
theorem ext {t u : Option Bool} (ht : t = some true ↔ u = some true)
    (hf : t = some false ↔ u = some false) : t = u := by
  rcases t with _ | _ | _ <;> rcases u with _ | _ | _ <;> simp_all

@[simp]
theorem neg_eq_true {t : Option Bool} : neg t = some true ↔ t = some false := by
  rcases t with _ | _ | _ <;> simp [neg]

@[simp]
theorem neg_eq_false {t : Option Bool} : neg t = some false ↔ t = some true := by
  rcases t with _ | _ | _ <;> simp [neg]

@[simp]
theorem neg_eq_none {t : Option Bool} : neg t = none ↔ t = none := by
  rcases t with _ | _ | _ <;> simp [neg]

@[simp]
theorem neg_neg (t : Option Bool) : neg (neg t) = t := by
  rcases t with _ | _ | _ <;> rfl

theorem all_eq_false {ts : List (Option Bool)} : all ts = some false ↔ some false ∈ ts := by
  unfold all
  split_ifs with hf hn <;> simp [hf]

theorem all_eq_true {ts : List (Option Bool)} :
    all ts = some true ↔ ∀ t ∈ ts, t = some true := by
  unfold all
  split_ifs with hf hn
  · simp only [Option.some.injEq, Bool.false_eq_true, false_iff]
    exact fun h => by simpa using h _ hf
  · simp only [false_iff]
    exact fun h => by simpa using h _ hn
  · simp only [true_iff]
    intro t ht
    rcases t with _ | _ | _
    · exact absurd ht hn
    · exact absurd ht hf
    · rfl

theorem any_eq_true {ts : List (Option Bool)} : any ts = some true ↔ some true ∈ ts := by
  unfold any
  split_ifs with ht hn <;> simp [ht]

theorem any_eq_false {ts : List (Option Bool)} :
    any ts = some false ↔ ∀ t ∈ ts, t = some false := by
  unfold any
  split_ifs with ht hn
  · simp only [Option.some.injEq, Bool.true_eq_false, false_iff]
    exact fun h => by simpa using h _ ht
  · simp only [false_iff]
    exact fun h => by simpa using h _ hn
  · simp only [true_iff]
    intro t htm
    rcases t with _ | _ | _
    · exact absurd htm hn
    · rfl
    · exact absurd htm ht

theorem all_eq_none {ts : List (Option Bool)} :
    all ts = none ↔ some false ∉ ts ∧ none ∈ ts := by
  unfold all
  split_ifs with hf hn <;> simp [*]

theorem any_eq_none {ts : List (Option Bool)} :
    any ts = none ↔ some true ∉ ts ∧ none ∈ ts := by
  unfold any
  split_ifs with ht hn <;> simp [*]

theorem any_cons_eq_true {t : Option Bool} {ts : List (Option Bool)} :
    any (t :: ts) = some true ↔ t = some true ∨ any ts = some true := by
  rw [any_eq_true, any_eq_true, List.mem_cons, eq_comm]

theorem all_cons_eq_true {t : Option Bool} {ts : List (Option Bool)} :
    all (t :: ts) = some true ↔ t = some true ∧ all ts = some true := by
  rw [all_eq_true, all_eq_true, List.forall_mem_cons]

/-- A conjunct that is a conjunction can be opened. -/
theorem all_append (ts us : List (Option Bool)) : all (ts ++ us) = all [all ts, all us] := by
  refine ext ?_ ?_
  · simp [all_eq_true, or_imp, forall_and]
  · simp only [all_eq_false, List.mem_append, List.mem_cons, List.not_mem_nil, or_false]
    rw [eq_comm, all_eq_false, eq_comm, all_eq_false]

theorem any_append (ts us : List (Option Bool)) : any (ts ++ us) = any [any ts, any us] := by
  refine ext ?_ ?_
  · simp only [any_eq_true, List.mem_append, List.mem_cons, List.not_mem_nil, or_false]
    rw [eq_comm, any_eq_true, eq_comm, any_eq_true]
  · simp [any_eq_false, or_imp, forall_and]

theorem all_cons (t : Option Bool) (ts : List (Option Bool)) : all (t :: ts) = all [t, all ts] := by
  refine ext ?_ ?_
  · simp [all_eq_true]
  · simp only [all_eq_false, List.mem_cons, List.not_mem_nil, or_false]
    rw [← @all_eq_false ts, @eq_comm _ _ (all ts)]

theorem any_cons (t : Option Bool) (ts : List (Option Bool)) : any (t :: ts) = any [t, any ts] := by
  refine ext ?_ ?_
  · simp only [any_eq_true, List.mem_cons, List.not_mem_nil, or_false]
    rw [← @any_eq_true ts, @eq_comm _ _ (any ts)]
  · simp [any_eq_false]

@[simp]
theorem all_true_pair (t : Option Bool) : all [some true, t] = t := by
  rcases t with _ | _ | _ <;> rfl

@[simp]
theorem all_pair_true (t : Option Bool) : all [t, some true] = t := by
  rcases t with _ | _ | _ <;> rfl

@[simp]
theorem any_false_pair (t : Option Bool) : any [some false, t] = t := by
  rcases t with _ | _ | _ <;> rfl

@[simp]
theorem any_pair_false (t : Option Bool) : any [t, some false] = t := by
  rcases t with _ | _ | _ <;> rfl

@[simp]
theorem all_singleton (t : Option Bool) : all [t] = t := by
  rcases t with _ | _ | _ <;> rfl

@[simp]
theorem any_singleton (t : Option Bool) : any [t] = t := by
  rcases t with _ | _ | _ <;> rfl

theorem all_pair_comm (t u : Option Bool) : all [t, u] = all [u, t] := by
  rcases t with _ | _ | _ <;> rcases u with _ | _ | _ <;> rfl

theorem any_pair_comm (t u : Option Bool) : any [t, u] = any [u, t] := by
  rcases t with _ | _ | _ <;> rcases u with _ | _ | _ <;> rfl

end Kleene

end GenieAcs
