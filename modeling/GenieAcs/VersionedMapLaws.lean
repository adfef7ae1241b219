import GenieAcs.VersionedMapResume

/-!
# The laws of a revision

A versioned map has a bit of a signed 32-bit mask for each revision. `Laws`
says what it promises about one. Bit 31 is the sign: the loop of `setRevisions`
does not end on a mask that has it, and revision 32 shares the bit of
revision 0. The laws hold up to revision 30.
-/

namespace GenieAcs

namespace VersionedMap

/-! ## Changes and masks -/

section Changes

variable {V : Type*} [DecidableEq V]

/-- What a slot is compared with. -/
def slotBefore (prev : Option V) (l : List (Option V)) : Nat → Option V
  | 0 => prev
  | n + 1 => readFrom prev l n

/-- A change is a slot that differs from the one before it. -/
theorem mem_changes {l : List (Option V)} {w : Option V} :
    ∀ {i n : Nat} {prev : Option V}, (i + n, w) ∈ changes i prev l
      ↔ n < l.length ∧ readFrom prev l n = w ∧ w ≠ slotBefore prev l n := by
  induction l with
  | nil => simp [changes]
  | cons v rest ih =>
      intro i n prev
      have hlater : ∀ p, (i, w) ∉ changes (i + 1) p rest := by
        intro p hmem
        have := changes_index hmem
        omega
      have hchanges : changes i prev (v :: rest)
          = (if v = prev then [] else [(i, v)]) ++ changes (i + 1) v rest := by
        rw [changes]
        split_ifs with hv
        · rw [hv]
          rfl
        · rfl
      rw [hchanges, List.mem_append, List.length_cons]
      cases n with
      | zero =>
          have hfirst : (i, w) ∈ (if v = prev then [] else [(i, v)]) ↔ v = w ∧ w ≠ prev := by
            split_ifs with hv
            · simp only [List.not_mem_nil, false_iff, not_and, not_not]
              rintro rfl
              exact hv
            · rw [List.mem_singleton, Prod.mk.injEq]
              exact ⟨fun h => ⟨h.2.symm, h.2 ▸ hv⟩, fun h => ⟨rfl, h.1.symm⟩⟩
          simp only [Nat.add_zero, hfirst, hlater, or_false, Nat.zero_lt_succ, true_and]
          rfl
      | succ n =>
          have hfirst : (i + (n + 1), w) ∉ (if v = prev then [] else [(i, v)]) := by
            split_ifs
            · exact List.not_mem_nil
            · rw [List.mem_singleton, Prod.mk.injEq]
              omega
          have hbefore : slotBefore prev (v :: rest) (n + 1) = slotBefore v rest n := by
            cases n <;> rfl
          rw [← Nat.add_assoc, Nat.add_right_comm] at hfirst ⊢
          rw [or_iff_right hfirst, ih, hbefore, Nat.add_lt_add_iff_right]
          rfl

theorem getRevisionsLoop_fresh (v : V) (res : Revisions V) (n : Nat) :
    ∀ i, getRevisionsLoop i none (List.replicate n none ++ [some v]) res
      = (some v, record res (i + n) (some v)) := by
  induction n with
  | zero => exact fun i => rfl
  | succ n ih =>
      intro i
      rw [List.replicate_succ, List.cons_append, getRevisionsLoop, if_pos rfl, ih,
        Nat.add_assoc, Nat.add_comm 1]

theorem revisionsOf_fresh (rev : Nat) (v : V) :
    revisionsOf (Slots.fresh rev (some v)) = some ⟨[(rev, v)], none⟩ := by
  rw [revisionsOf, Slots.fresh, getRevisionsLoop_fresh, Nat.zero_add]
  rfl

/-- A mask with the sign bit is never used up. -/
theorem setRevisionsLoop_endless {r : Revisions V} (h : (mutations r).getLsbD 31 = true)
    (fuel : Nat) : ∀ (i : Nat) (prev : Option V) (dirty : BitVec 32),
      setRevisionsLoop r fuel i prev dirty = none := by
  have hsign : (mutations r).msb = true := by
    rw [BitVec.msb_eq_getLsbD_last]
    exact h
  have hne : ∀ i, (mutations r).sshiftRight (i % 32) ≠ 0#32 := by
    intro i hzero
    have hbit : ((mutations r).sshiftRight (i % 32)).msb = true := by
      rw [BitVec.msb_sshiftRight, hsign]
    rw [hzero] at hbit
    cases hbit
  induction fuel with
  | zero =>
      intro i prev dirty
      unfold setRevisionsLoop
      rw [if_neg (hne i)]
  | succ fuel ih =>
      intro i prev dirty
      unfold setRevisionsLoop
      rw [if_neg (hne i)]
      dsimp only
      rw [ih]
      rfl

end Changes

/-! ## The laws -/

/-- What the map promises about a revision: a write takes its bit and no other,
which no earlier revision has, and the history of a key that ends there goes
through `getRevisions` and `setRevisions`. -/
structure Laws (rev : Nat) : Prop where
  set : ∀ {K V : Type} [DecidableEq K] {m m' : VersionedMap K V} {key : K} {value : V},
    m.set key value rev = some m' →
      ∀ i, m'.dirty.getLsbD i = (m.dirty.getLsbD i || decide (i = rev))
  delete : ∀ {K V : Type} [DecidableEq K] {m m' : VersionedMap K V} {key : K},
    m.delete key rev = (some true, m') →
      ∀ i, m'.dirty.getLsbD i = (m.dirty.getLsbD i || decide (i = rev))
  distinct : ∀ rev' < rev, bit rev' ≠ bit rev
  deleted : ∀ {K V : Type} [DecidableEq K] [DecidableEq V] {m : VersionedMap K V} {key : K}
    {r : Revisions V}, m.newest key = rev → m.getRevisions key = some r →
      ∀ i, (r.delete.getD 0#32).getLsbD i = true
        ↔ 0 < i ∧ m.has key (i - 1) = true ∧ m.has key i = false
  restores : ∀ {K V : Type} [DecidableEq K] [DecidableEq V] {m : VersionedMap K V} {key : K}
    {r : Revisions V}, m.newest key = rev → m.getRevisions key = some r →
      ∀ m0 : VersionedMap K V, ∃ m', m0.setRevisions key r = some m'
        ∧ ∀ i, m'.get key i = m.get key i

section

variable {K V : Type} [DecidableEq K] {m m' : VersionedMap K V} {key : K} {rev : Nat}

theorem dirty_set {value : V} (h : m.set key value rev = some m') :
    m'.dirty = m.dirty ||| bit rev := by
  rcases Nat.lt_or_ge rev (m.newest key) with hlt | hnew
  · rw [set_refused hlt] at h
    cases h
  · cases hs : m.map.get? key with
    | none =>
        rw [set_of_absent hs] at h
        cases h
        rfl
    | some s =>
        rw [newest_of_slots hs] at hnew
        rw [set_of_slots hs hnew] at h
        cases h
        rfl

theorem dirty_delete (h : m.delete key rev = (some true, m')) :
    m'.dirty = m.dirty ||| bit rev := by
  cases hs : m.map.get? key with
  | none =>
      rw [delete, hs] at h
      cases h
  | some s =>
      unfold delete at h
      rw [hs] at h
      dsimp only at h
      by_cases hlt : rev < s.newest
      · rw [if_pos hlt] at h
        cases h
      · rw [if_neg hlt] at h
        by_cases hl : s.last.isNone = true
        · rw [if_pos hl] at h
          cases h
        · rw [if_neg hl] at h
          cases h
          rfl

theorem bit_inj {i j : Nat} (hi : i < 32) (hj : j < 32) (h : bit i = bit j) : i = j := by
  have hbit := congrArg (fun x => x.getLsbD i) h
  simpa [bit_getLsbD hi, bit_getLsbD hj] using hbit

variable [DecidableEq V]

theorem deleted_iff {r : Revisions V} (hnew : m.newest key < 31)
    (hr : m.getRevisions key = some r) (i : Nat) :
    (r.delete.getD 0#32).getLsbD i = true
      ↔ 0 < i ∧ m.has key (i - 1) = true ∧ m.has key i = false := by
  obtain ⟨s, hs, hr'⟩ := Option.bind_eq_some_iff.mp hr
  rw [newest_of_slots hs] at hnew
  have hchange : (i, none) ∈ changes 0 none s.toList ↔ i < s.toList.length
      ∧ readFrom none s.toList i = none ∧ none ≠ slotBefore none s.toList i := by
    rw [← mem_changes (i := 0), Nat.zero_add]
  rw [(revisionsOf_records hnew hr').delete i, hchange, has_eq, has_eq, get_of_slots hs,
    get_of_slots hs, hist_eq_readFrom s none, hist_eq_readFrom s none]
  cases i with
  | zero => exact iff_of_false (fun h => h.2.2 rfl) fun h => Nat.lt_irrefl 0 h.1
  | succ i =>
      rw [Nat.add_sub_cancel, Option.isSome_eq_false_iff, Option.isNone_iff_eq_none,
        Option.isSome_iff_ne_none]
      constructor
      · exact fun h => ⟨Nat.succ_pos i, h.2.2.symm, h.2.1⟩
      · rintro ⟨-, hprev, hnone⟩
        refine ⟨?_, hnone, hprev.symm⟩
        by_contra hlen
        have hlength := s.length_eq
        -- past the last slot nothing changes
        rw [← hist_eq_readFrom, Slots.hist_of_ge (by omega)] at hprev hnone
        exact hprev hnone

theorem setRevisions_restores {r : Revisions V} (hnew : m.newest key < 31)
    (hr : m.getRevisions key = some r) (m0 : VersionedMap K V) :
    ∃ m', m0.setRevisions key r = some m' ∧ ∀ i, m'.get key i = m.get key i := by
  obtain ⟨s, hs, hr'⟩ := Option.bind_eq_some_iff.mp hr
  rw [newest_of_slots hs] at hnew
  obtain ⟨t, dirty, ht, hset⟩ := setRevisions_eq hnew hr' m0 key
  refine ⟨_, hset, fun i => ?_⟩
  rw [get_of_map_set (m := m0) rfl, if_pos rfl, hist_settleSlots ht, get_of_slots hs]

end

theorem laws_of_le {rev : Nat} (h : rev ≤ 30) : Laws rev where
  set hset i := by
    rw [dirty_set hset, BitVec.getLsbD_or, bit_getLsbD (by omega)]
  delete hdelete i := by
    rw [dirty_delete hdelete, BitVec.getLsbD_or, bit_getLsbD (by omega)]
  distinct rev' hlt heq := Nat.ne_of_lt hlt (bit_inj (by omega) (by omega) heq)
  deleted hnew hr := deleted_iff (by omega) hr
  restores hnew hr := setRevisions_restores (by omega) hr

/-- A value set at revision 31 cannot be put back. -/
theorem not_laws_sign : ¬ Laws 31 := by
  intro h
  have habsent : (empty : VersionedMap Nat Nat).map.get? 0 = none := rfl
  have hset := set_of_absent habsent 0 31
  generalize hm : VersionedMap.mk _ _ _ _ = m at hset
  have hs : m.map.get? 0 = some (Slots.fresh 31 (some 0)) := by
    rw [← hm]
    rfl
  have hnew : m.newest 0 = 31 := by rw [newest_of_slots hs, Slots.newest_fresh]
  have hr : m.getRevisions 0 = some ⟨[(31, 0)], none⟩ := by
    rw [getRevisions, hs, Option.bind_some, revisionsOf_fresh]
  obtain ⟨m', hm', -⟩ := h.restores hnew hr empty
  rw [setRevisions, setRevisionsLoop_endless rfl] at hm'
  cases hm'

/-- Revision 32 has the bit of revision 0. -/
theorem not_laws_wrap : ¬ Laws 32 := fun h => h.distinct 0 (by omega) rfl

end VersionedMap

end GenieAcs
