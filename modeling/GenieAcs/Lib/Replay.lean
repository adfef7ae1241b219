import Mathlib.Data.Int.Basic
import Mathlib.Data.List.Basic
import Mathlib.Logic.Function.Basic
import Mathlib.Tactic.Common

/-!
# Replays

A program with calls whose results are kept. An attempt goes through its events from the
beginning and stops at the first call without a result; the call is made, and the program
attempted again. A counter goes up with each call. It starts at minus the number of calls
that the last attempt came to, and what comes while it is negative was put out before.
The attempts together put out everything once, in order (`replay_outs`).
-/

namespace GenieAcs

namespace Replay

inductive Event (M K : Type)
  | out (m : M)
  | call (k : K)

variable {M K : Type}

def outs : List (Event M K) → List M
  | [] => []
  | .out m :: es => m :: outs es
  | .call _ :: es => outs es

def calls : List (Event M K) → ℕ
  | [] => 0
  | .out _ :: es => calls es
  | .call _ :: es => calls es + 1

/-- What is put out, the counter at the end, and the call that has no result. -/
structure Attempt (M K : Type) where
  outs : List M
  counter : ℤ
  missing : Option K

def attempt (known : K → Bool) : List (Event M K) → ℤ → Attempt M K
  | [], c => ⟨[], c, none⟩
  | .out m :: es, c =>
      let a := attempt known es c
      if 0 ≤ c then { a with outs := m :: a.outs } else a
  | .call k :: es, c => if known k then attempt known es (c + 1) else ⟨[], c + 1, some k⟩

/-- The attempts, at most `n` of them, and what has a result after them. -/
def replay [DecidableEq K] (es : List (Event M K)) :
    ℕ → (K → Bool) → ℤ → Option (List M × (K → Bool))
  | 0, _, _ => none
  | n + 1, known, c =>
      let a := attempt known es c
      match a.missing with
      | none => some (a.outs, known)
      | some k =>
          (replay es n (Function.update known k true) (c - a.counter)).map
            fun r => (a.outs ++ r.1, r.2)

theorem outs_append (es fs : List (Event M K)) : outs (es ++ fs) = outs es ++ outs fs := by
  induction es with
  | nil => rfl
  | cons e es ih =>
      cases e with
      | out m => exact congrArg (m :: ·) ih
      | call k => exact ih

theorem calls_append (es fs : List (Event M K)) : calls (es ++ fs) = calls es + calls fs := by
  induction es with
  | nil => exact (Nat.zero_add _).symm
  | cons e es ih =>
      cases e with
      | out m => exact ih
      | call k =>
          rw [List.cons_append, calls, calls, ih]
          omega

/-- All calls have results. -/
def Known (known : K → Bool) (es : List (Event M K)) : Prop := ∀ k, .call k ∈ es → known k = true

variable {known known' : K → Bool} {es p q r : List (Event M K)} {c : ℤ} {k : K}

theorem Known.append (hp : Known known p) (hq : Known known q) : Known known (p ++ q) :=
  fun k hk => (List.mem_append.mp hk).elim (hp k) (hq k)

theorem Known.tail {e : Event M K} (h : Known known (e :: es)) : Known known es :=
  fun k hk => h k (List.mem_cons_of_mem _ hk)

theorem Known.mono (h : Known known es) (hle : ∀ k, known k = true → known' k = true) :
    Known known' es := fun k hk => hle k (h k hk)

/-- Either all calls have results, or there is a first one that has none. -/
theorem known_or_missing (known : K → Bool) (es : List (Event M K)) :
    Known known es ∨ ∃ q k r, es = q ++ .call k :: r ∧ Known known q ∧ known k = false := by
  induction es with
  | nil => exact Or.inl fun _ hk => absurd hk List.not_mem_nil
  | cons e es ih =>
      by_cases hmissing : ∃ k, e = .call k ∧ known k = false
      · obtain ⟨k, rfl, hk⟩ := hmissing
        exact Or.inr ⟨[], k, es, rfl, fun _ hk => absurd hk List.not_mem_nil, hk⟩
      · have he : ∀ k, e = .call k → known k = true := fun k heq =>
          Bool.not_eq_false _ ▸ fun hk => hmissing ⟨k, heq, hk⟩
        rcases ih with hes | ⟨q, k, r, rfl, hq, hk⟩
        · exact Or.inl fun k hk => (List.mem_cons.mp hk).elim (fun heq => he k heq.symm) (hes k)
        · refine Or.inr ⟨e :: q, k, r, rfl, ?_, hk⟩
          exact fun k hk => (List.mem_cons.mp hk).elim (fun heq => he k heq.symm) (hq k)

/-! ## One attempt -/

theorem missing_unknown (h : (attempt known es c).missing = some k) : known k = false := by
  induction es generalizing c with
  | nil => exact nomatch h
  | cons e es ih =>
      cases e with
      | out m =>
          rw [attempt] at h
          split_ifs at h
          · exact ih h
          · exact ih h
      | call k' =>
          rw [attempt] at h
          split_ifs at h with hk
          · exact ih h
          · cases h
            exact Bool.eq_false_iff.mpr hk

/-- Nothing is put out while the counter is negative. -/
theorem attempt_negative (hq : Known known q) (hc : c + calls q < 0) :
    attempt known (q ++ r) c = attempt known r (c + calls q) := by
  induction q generalizing c with
  | nil =>
      rw [List.nil_append, calls]
      congr 1
      omega
  | cons e q ih =>
      cases e with
      | out m =>
          rw [calls] at hc ⊢
          rw [List.cons_append, attempt, if_neg (by omega), ih hq.tail hc]
      | call k =>
          rw [calls] at hc ⊢
          rw [List.cons_append, attempt, if_pos (hq k List.mem_cons_self),
            ih hq.tail (by push_cast at hc; omega)]
          congr 1
          push_cast
          omega

/-- Up to the last call of the last attempt everything was put out before. -/
theorem attempt_replayed (hp : p = [] ∨ ∃ q k, p = q ++ [.call k]) (hknown : Known known p) :
    attempt known (p ++ r) (-calls p) = attempt known r 0 := by
  rcases hp with rfl | ⟨q, k, rfl⟩
  · rfl
  · have hq : Known known q := fun k hk => hknown k (List.mem_append_left _ hk)
    have hk := hknown k (List.mem_append_right _ (List.mem_singleton_self _))
    have hcalls : calls (q ++ [.call k]) = calls q + 1 := calls_append q [.call k]
    rw [List.append_assoc, hcalls, attempt_negative hq (by push_cast; omega), List.cons_append,
      List.nil_append, attempt, if_pos hk]
    congr 1
    push_cast
    omega

theorem attempt_known (hknown : Known known es) (hc : 0 ≤ c) :
    attempt known es c = ⟨outs es, c + calls es, none⟩ := by
  induction es generalizing c with
  | nil =>
      rw [attempt, outs, calls]
      congr 1
      omega
  | cons e es ih =>
      cases e with
      | out m => rw [attempt, ih hknown.tail hc, if_pos hc, outs, calls]
      | call k =>
          rw [attempt, if_pos (hknown k List.mem_cons_self), ih hknown.tail (by omega), outs, calls]
          congr 1
          push_cast
          omega

theorem attempt_missing (hq : Known known q) (hk : known k = false) (hc : 0 ≤ c) :
    attempt known (q ++ .call k :: r) c = ⟨outs q, c + calls q + 1, some k⟩ := by
  induction q generalizing c with
  | nil =>
      rw [List.nil_append, attempt, if_neg (by rw [hk]; exact Bool.false_ne_true), outs, calls]
      congr 1
      omega
  | cons e q ih =>
      cases e with
      | out m => rw [List.cons_append, attempt, ih hq.tail hc, if_pos hc, outs, calls]
      | call k' =>
          rw [List.cons_append, attempt, if_pos (hq k' List.mem_cons_self), ih hq.tail (by omega),
            outs, calls]
          congr 1
          push_cast
          omega

/-! ## All attempts -/

variable [DecidableEq K]

/-- From the attempt on that follows the last call of `p`. -/
theorem replay_from {n : ℕ} (hp : p = [] ∨ ∃ q k, p = q ++ [.call k]) (hknown : Known known p)
    (hn : calls r < n) : ∃ known', replay (p ++ r) n known (-calls p) = some (outs r, known')
      ∧ Known known' (p ++ r) ∧ ∀ k, known k = true → known' k = true := by
  induction n generalizing p r known with
  | zero => exact absurd hn (Nat.not_lt_zero _)
  | succ n ih =>
      rw [replay, attempt_replayed hp hknown]
      rcases known_or_missing known r with hr | ⟨q, k, r, rfl, hq, hk⟩
      · rw [attempt_known hr (Int.le_refl _)]
        exact ⟨known, rfl, hknown.append hr, fun _ h => h⟩
      · rw [attempt_missing hq hk (Int.le_refl _)]
        have hmono : ∀ k', known k' = true → Function.update known k true k' = true := by
          intro k' hk'
          by_cases heq : k' = k
          · rw [heq, Function.update_self]
          · rw [Function.update_of_ne heq, hk']
        have hstop : Known (Function.update known k true) (p ++ (q ++ [.call k])) := by
          refine (hknown.mono hmono).append ((hq.mono hmono).append ?_)
          intro k' hk'
          cases List.mem_singleton.mp hk'
          exact Function.update_self ..
        have hsplit : p ++ (q ++ .call k :: r) = (p ++ (q ++ [.call k])) ++ r := by
          simp only [List.append_assoc, List.cons_append, List.nil_append]
        have hcounter : -(calls p : ℤ) - (0 + calls q + 1)
            = -(calls (p ++ (q ++ [Event.call (M := M) k])) : ℕ) := by
          have hone : calls [Event.call (M := M) k] = 1 := rfl
          rw [calls_append, calls_append, hone]
          push_cast
          omega
        rw [calls_append, calls] at hn
        obtain ⟨known', hrun, hall, hle⟩ := ih (p := p ++ (q ++ [.call k])) (r := r)
          (Or.inr ⟨p ++ q, k, (List.append_assoc ..).symm⟩) hstop (by omega)
        refine ⟨known', ?_, hsplit ▸ hall, fun k' hk' => hle k' (hmono k' hk')⟩
        simp only
        rw [hcounter, hsplit, hrun, outs_append, outs]
        rfl

/-- The attempts put out everything once, in order. -/
theorem replay_outs {n : ℕ} (known : K → Bool) (hn : calls es < n) :
    ∃ known', replay es n known 0 = some (outs es, known')
      ∧ Known known' es ∧ ∀ k, known k = true → known' k = true :=
  replay_from (p := []) (Or.inl rfl) (fun _ hk => absurd hk List.not_mem_nil) hn

end Replay

end GenieAcs
