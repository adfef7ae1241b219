import Mathlib.Data.List.Nodup
import Mathlib.Data.List.Perm.Basic

/-!
# Promises with a timeout

A map holds what waits for a result, and whoever settles an item takes it out
of the map first. A result is passed on at once or is *planned* to be. Each item
has a timer that settles it if it still waits.

Every item is then in one place only (`Accounts`): it waits and has its timer, or its
result is planned, or it is settled. So it is settled at most once, and once its timer
has fired it does not wait any more.
-/

namespace GenieAcs

structure Promises (I V : Type*) where
  waiting : List I
  timers : List I
  planned : List (I × V)
  /-- What has been settled, the last at the end. -/
  settled : List (I × V)

namespace Promises

variable {I V : Type*}

def empty : Promises I V := ⟨[], [], [], []⟩

def ask (p : Promises I V) (i : I) : Promises I V :=
  { p with waiting := p.waiting ++ [i], timers := p.timers ++ [i] }

section

variable [DecidableEq I]

def settle (p : Promises I V) (i : I) (v : V) : Promises I V :=
  if i ∈ p.waiting then
    { p with waiting := p.waiting.erase i, settled := p.settled ++ [(i, v)] }
  else p

def plan (p : Promises I V) (i : I) (v : V) : Promises I V :=
  if i ∈ p.waiting then
    { p with waiting := p.waiting.erase i, planned := p.planned ++ [(i, v)] }
  else p

def expire (p : Promises I V) (i : I) (v : V) : Promises I V :=
  { p.settle i v with timers := p.timers.erase i }

end

/-- The first planned result is passed on. -/
def pass (p : Promises I V) : Promises I V :=
  match p.planned with
  | [] => p
  | item :: planned => { p with planned, settled := p.settled ++ [item] }

/-- The items, by the place they are in. -/
def items (p : Promises I V) : List I :=
  p.waiting ++ (p.planned.map Prod.fst ++ p.settled.map Prod.fst)

/-- The results there are. -/
def results (p : Promises I V) : List (I × V) := p.planned ++ p.settled

/-- Each of the items `asked` is in one place, and has its timer as long as it waits. -/
structure Accounts (asked : List I) (p : Promises I V) : Prop where
  nodup : asked.Nodup
  perm : asked.Perm p.items
  timed : ∀ i ∈ p.waiting, i ∈ p.timers

variable {asked : List I} {p : Promises I V} {i : I} {v : V}

theorem Accounts.empty : Accounts ([] : List I) (empty : Promises I V) :=
  ⟨.nil, .refl _, fun _ h => absurd h List.not_mem_nil⟩

theorem Accounts.nodup_items (h : Accounts asked p) : p.items.Nodup :=
  h.perm.nodup_iff.mp h.nodup

theorem Accounts.nodup_waiting (h : Accounts asked p) : p.waiting.Nodup :=
  (List.nodup_append.mp h.nodup_items).1

theorem Accounts.nodup_settled (h : Accounts asked p) : (p.settled.map Prod.fst).Nodup :=
  (List.nodup_append.mp (List.nodup_append.mp h.nodup_items).2.1).2.1

theorem Accounts.ask (h : Accounts asked p) (hi : i ∉ asked) :
    Accounts (asked ++ [i]) (p.ask i) where
  nodup := List.nodup_append.mpr ⟨h.nodup, List.nodup_singleton i, fun j hj k hk => by
    rw [List.mem_singleton.mp hk]
    exact fun heq => hi (heq ▸ hj)⟩
  perm := by
    have hlast : (p.planned.map Prod.fst ++ p.settled.map Prod.fst ++ [i]).Perm
        ([i] ++ (p.planned.map Prod.fst ++ p.settled.map Prod.fst)) := List.perm_append_comm
    refine (h.perm.append_right [i]).trans ?_
    simp only [items, Promises.ask, List.append_assoc] at hlast ⊢
    exact hlast.append_left p.waiting
  timed j hj := by
    rcases List.mem_append.mp hj with hj | hj
    · exact List.mem_append_left _ (h.timed j hj)
    · exact List.mem_append_right _ hj

section

variable [DecidableEq I]

theorem items_settle (hi : i ∈ p.waiting) : p.items.Perm (p.settle i v).items := by
  rw [settle, if_pos hi, items, items, List.map_append, ← List.append_assoc (p.planned.map _)]
  refine ((List.perm_cons_erase hi).append_right _).trans ?_
  rw [← List.append_assoc (p.waiting.erase i)]
  exact (List.perm_append_singleton i _).symm

theorem items_plan (hi : i ∈ p.waiting) : p.items.Perm (p.plan i v).items := by
  rw [plan, if_pos hi, items, items, List.map_append, List.append_assoc]
  refine ((List.perm_cons_erase hi).append_right _).trans ?_
  exact List.perm_middle.symm.trans
    ((List.perm_middle.symm.trans (.refl _)).append_left _)

theorem Accounts.settle (h : Accounts asked p) : Accounts asked (p.settle i v) := by
  by_cases hi : i ∈ p.waiting
  · refine ⟨h.nodup, h.perm.trans (items_settle hi), ?_⟩
    rw [Promises.settle, if_pos hi]
    exact fun j hj => h.timed j (List.mem_of_mem_erase hj)
  · rwa [Promises.settle, if_neg hi]

theorem Accounts.plan (h : Accounts asked p) : Accounts asked (p.plan i v) := by
  by_cases hi : i ∈ p.waiting
  · refine ⟨h.nodup, h.perm.trans (items_plan hi), ?_⟩
    rw [Promises.plan, if_pos hi]
    exact fun j hj => h.timed j (List.mem_of_mem_erase hj)
  · rwa [Promises.plan, if_neg hi]

/-- What a timer was set for does not wait after it. -/
theorem not_mem_waiting_settle (h : Accounts asked p) : i ∉ (p.settle i v).waiting := by
  rw [Promises.settle]
  split_ifs with hi
  · exact h.nodup_waiting.not_mem_erase
  · exact hi

theorem Accounts.expire (h : Accounts asked p) : Accounts asked (p.expire i v) where
  nodup := h.nodup
  perm := h.settle.perm
  timed j hj := by
    have hne : j ≠ i := fun heq => not_mem_waiting_settle h (heq ▸ hj)
    have htimed := h.settle.timed j hj
    have htimers : (p.settle i v).timers = p.timers := by
      rw [Promises.settle]
      split_ifs <;> rfl
    rw [htimers] at htimed
    exact (List.mem_erase_of_ne hne).mpr htimed

end

theorem Accounts.pass (h : Accounts asked p) : Accounts asked p.pass := by
  rw [Promises.pass]
  cases hplanned : p.planned with
  | nil => exact h
  | cons item planned =>
      refine ⟨h.nodup, h.perm.trans ?_, h.timed⟩
      rw [items, items, hplanned, List.map_append, List.map_cons, List.cons_append]
      refine List.Perm.append_left _ ?_
      rw [← List.append_assoc]
      exact (List.perm_append_singleton _ _).symm

/-- Once its timer has fired an item does not wait. -/
theorem Accounts.done (h : Accounts asked p) (hi : i ∈ asked) (htimer : i ∉ p.timers) :
    i ∈ p.results.map Prod.fst := by
  rcases List.mem_append.mp (h.perm.mem_iff.mp hi) with hwaiting | hresult
  · exact absurd (h.timed i hwaiting) htimer
  · rwa [results, List.map_append]

/-! ## Results -/

theorem results_pass (p : Promises I V) : p.pass.results.Perm p.results := by
  rw [pass]
  cases hplanned : p.planned with
  | nil => rfl
  | cons item planned =>
      rw [results, results, hplanned, ← List.append_assoc, List.cons_append]
      exact List.perm_append_singleton _ _

variable [DecidableEq I]

/-- A new result is that of an item that waited. -/
theorem mem_results_settle {e : I × V} (h : e ∈ (p.settle i v).results) :
    e ∈ p.results ∨ i ∈ p.waiting ∧ e = (i, v) := by
  rw [settle] at h
  split_ifs at h with hi
  · rw [results, ← List.append_assoc] at h
    rcases List.mem_append.mp h with h | h
    · exact .inl h
    · exact .inr ⟨hi, List.mem_singleton.mp h⟩
  · exact .inl h

theorem mem_results_plan {e : I × V} (h : e ∈ (p.plan i v).results) :
    e ∈ p.results ∨ i ∈ p.waiting ∧ e = (i, v) := by
  rw [plan] at h
  split_ifs at h with hi
  · rw [results, List.append_assoc] at h
    rcases List.mem_append.mp h with h | h
    · exact .inl (List.mem_append_left _ h)
    · rcases List.mem_append.mp h with h | h
      · exact .inr ⟨hi, List.mem_singleton.mp h⟩
      · exact .inl (List.mem_append_right _ h)
  · exact .inl h

end Promises

end GenieAcs
