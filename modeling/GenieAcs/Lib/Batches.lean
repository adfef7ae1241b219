import Mathlib.Algebra.Order.Floor.Semiring
import Mathlib.Data.Rat.Floor

/-!
# Batches

A loop takes items from the front of a queue until its batch is full. Some of
the items are not wanted when their turn comes; they are dropped.

Over a run of such loops the queue is cut into pieces, one for each loop, and a
loop sends what it wants of its piece (`TakesAll`): whatever is wanted at its
turn is sent, once and in order, and nothing else.
-/

namespace GenieAcs

namespace Batch

variable {α β D R : Type*}

/-! ## One loop -/

/-- The loop: what is sent, and what it did not come to. Whether the batch is full
is looked at after the items that count. -/
def takeBatch (counts : α → Bool) (wanted : α → Option β) (n : ℚ) :
    List α → List β → List β × List α
  | [], sent => (sent, [])
  | a :: queue, sent =>
      if counts a ∧ n ≤ (sent ++ (wanted a).toList).length then
        (sent ++ (wanted a).toList, queue)
      else takeBatch counts wanted n queue (sent ++ (wanted a).toList)

/-- The loop where an item may be in error. -/
def takeBatchE {ε : Type*} (check : α → Option ε) (counts : α → Bool) (wanted : α → Option β)
    (n : ℚ) : List α → List β → Except ε (List β × List α)
  | [], sent => .ok (sent, [])
  | a :: queue, sent =>
      match check a with
      | some e => .error e
      | none =>
          if counts a ∧ n ≤ (sent ++ (wanted a).toList).length then
            .ok (sent ++ (wanted a).toList, queue)
          else takeBatchE check counts wanted n queue (sent ++ (wanted a).toList)

theorem takeBatchE_eq_ok {ε : Type*} {check : α → Option ε} {counts : α → Bool}
    {wanted : α → Option β} {n : ℚ} {queue : List α} {sent : List β} {r : List β × List α}
    (h : takeBatchE check counts wanted n queue sent = .ok r) :
    r = takeBatch counts wanted n queue sent := by
  induction queue generalizing sent with
  | nil => exact (Except.ok.inj h).symm
  | cons a queue ih =>
      rw [takeBatchE] at h
      rw [takeBatch]
      cases ha : check a with
      | some e => simp [ha] at h
      | none =>
          simp only [ha] at h
          split_ifs at h ⊢ with hfull
          · exact (Except.ok.inj h).symm
          · exact ih h

/-- Without an item in error the loop comes to its end. -/
theorem takeBatchE_ok {ε : Type*} {check : α → Option ε} (counts : α → Bool)
    (wanted : α → Option β) (n : ℚ) {queue : List α} (h : ∀ a ∈ queue, check a = none)
    (sent : List β) :
    takeBatchE check counts wanted n queue sent = .ok (takeBatch counts wanted n queue sent) := by
  induction queue generalizing sent with
  | nil => rfl
  | cons a queue ih =>
      rw [takeBatchE, takeBatch, h a List.mem_cons_self]
      split_ifs with hfull
      · rfl
      · exact ih (fun b hb => h b (List.mem_cons_of_mem _ hb)) _

/-- One loop takes `piece` from the front of a queue and sends what is `wanted` of it. -/
def Takes (wanted : α → Option β) (queue left : List α) (sent : List β) : Prop :=
  ∃ piece, queue = piece ++ left ∧ sent = piece.filterMap wanted

theorem Takes.refl (wanted : α → Option β) (queue : List α) : Takes wanted queue queue [] :=
  ⟨[], rfl, rfl⟩

/-- A loop that sends nothing is followed by another. -/
theorem Takes.trans {wanted : α → Option β} {queue left left' : List α} {sent : List β}
    (h : Takes wanted queue left []) (h' : Takes wanted left left' sent) :
    Takes wanted queue left' sent := by
  obtain ⟨piece, rfl, hpiece⟩ := h
  obtain ⟨piece', rfl, rfl⟩ := h'
  exact ⟨piece ++ piece', (List.append_assoc ..).symm, by rw [List.filterMap_append, ← hpiece]; rfl⟩

theorem Takes.length_le {wanted : α → Option β} {queue left : List α} {sent : List β}
    (h : Takes wanted queue left sent) : left.length ≤ queue.length := by
  obtain ⟨piece, rfl, -⟩ := h
  simp

theorem Takes.length_lt {wanted : α → Option β} {queue left : List α} {sent : List β}
    (h : Takes wanted queue left sent) (hne : sent ≠ []) : left.length < queue.length := by
  obtain ⟨piece, rfl, rfl⟩ := h
  cases piece with
  | nil => exact absurd rfl hne
  | cons a piece =>
      rw [List.length_append, List.length_cons]
      omega

theorem Takes.sublist {wanted : α → Option β} {queue left : List α} {sent : List β}
    (h : Takes wanted queue left sent) : left.Sublist queue := by
  obtain ⟨piece, rfl, -⟩ := h
  exact List.sublist_append_right _ _

/-- A batch is full with `⌈n⌉` items, and has room for one. -/
theorem takeBatch_spec {counts : α → Bool} {wanted : α → Option β}
    (hcounts : ∀ a, (wanted a).isSome → counts a = true) (n : ℚ) (queue : List α)
    (sent : List β) :
    ∃ piece, queue = piece ++ (takeBatch counts wanted n queue sent).2
      ∧ (takeBatch counts wanted n queue sent).1 = sent ++ piece.filterMap wanted
      ∧ ((takeBatch counts wanted n queue sent).2 = []
        ∨ n ≤ (takeBatch counts wanted n queue sent).1.length)
      ∧ (takeBatch counts wanted n queue sent).1.length ≤ max (sent.length + 1) ⌈n⌉₊ := by
  induction queue generalizing sent with
  | nil => exact ⟨[], by simp [takeBatch]⟩
  | cons a queue ih =>
      have hone : (sent ++ (wanted a).toList).length ≤ sent.length + 1 := by
        cases wanted a <;> simp
      have hpiece : ∀ piece : List α, sent ++ (wanted a).toList ++ piece.filterMap wanted
          = sent ++ (a :: piece).filterMap wanted := by
        intro piece
        cases ha : wanted a <;> simp [ha]
      rw [takeBatch]
      split_ifs with hfull
      · exact ⟨[a], rfl, by simpa using hpiece [], Or.inr hfull.2, hone.trans (le_max_left _ _)⟩
      · obtain ⟨piece, hqueue, hsent, hend, hlength⟩ := ih (sent ++ (wanted a).toList)
        refine ⟨a :: piece, by rw [List.cons_append, ← hqueue], by rw [hsent, hpiece], hend,
          hlength.trans (max_le ?_ (le_max_right _ _))⟩
        cases ha : wanted a with
        | none => simp
        | some b =>
            -- the item counts, so that the batch is not full yet
            rw [not_and, not_le, ← Nat.lt_ceil, ha] at hfull
            exact (hfull (hcounts a (by simp [ha]))).trans_le (le_max_right _ _)

/-- A batch that sends nothing has come to the end of its queue. -/
theorem left_nil {left : List α} {sent : List β} {n : ℚ} (hn : 0 < n)
    (h : left = [] ∨ n ≤ sent.length) (hsent : sent = []) : left = [] := by
  refine h.resolve_right fun hle => ?_
  rw [hsent, List.length_nil, Nat.cast_zero] at hle
  exact absurd hn (not_lt.mpr hle)

/-! ## A run of loops -/

/-- The loops take what is `wanted` of a queue, piece by piece; what an item is
wanted for may depend on the data of the loop. -/
def TakesAll (wanted : D → α → Option β) (sent : R → List β) (queue left : List α)
    (calls : List (D × R)) : Prop :=
  ∃ pieces : List (List α), queue = pieces.flatten ++ left
    ∧ List.Forall₂ (fun piece call => sent call.2 = piece.filterMap (wanted call.1)) pieces calls

variable {wanted : D → α → Option β} {sent : R → List β} {queue left : List α}
  {calls : List (D × R)}

theorem TakesAll.nil (wanted : D → α → Option β) (sent : R → List β) (queue : List α) :
    TakesAll wanted sent queue queue [] := ⟨[], rfl, .nil⟩

theorem TakesAll.cons {left' : List α} {d : D} {r : R}
    (h : Takes (wanted d) queue left (sent r)) (h' : TakesAll wanted sent left left' calls) :
    TakesAll wanted sent queue left' ((d, r) :: calls) := by
  obtain ⟨piece, rfl, hpiece⟩ := h
  obtain ⟨pieces, rfl, hpieces⟩ := h'
  exact ⟨piece :: pieces, by simp, .cons hpiece hpieces⟩

theorem TakesAll.left_nil (h : TakesAll wanted sent queue left calls) (hqueue : queue = []) :
    left = [] := by
  obtain ⟨pieces, hpieces, -⟩ := h
  exact (List.append_eq_nil_iff.mp (hpieces.symm.trans hqueue)).2

/-- Every item of a queue that is emptied has its turn. -/
theorem TakesAll.mem (h : TakesAll wanted sent queue left calls) {a : α} (ha : a ∈ queue)
    (hleft : left = []) : ∃ call ∈ calls, ∀ b ∈ wanted call.1 a, b ∈ sent call.2 := by
  obtain ⟨pieces, rfl, hpieces⟩ := h
  rw [hleft, List.append_nil] at ha
  clear hleft
  induction hpieces with
  | nil => simp at ha
  | @cons piece call pieces calls hpiece _ ih =>
      rw [List.flatten_cons, List.mem_append] at ha
      rcases ha with ha | ha
      · refine ⟨call, List.mem_cons_self, fun b hb => ?_⟩
        rw [hpiece]
        exact List.mem_filterMap.mpr ⟨a, ha, hb⟩
      · obtain ⟨c, hc, h⟩ := ih ha
        exact ⟨c, List.mem_cons_of_mem _ hc, h⟩

end Batch

end GenieAcs
