import Mathlib.Data.List.Dedup
import Mathlib.Data.List.InsertIdx
import GenieAcs.CwmpFaults

/-!
# Where appended provisions land

`appendProvisions` walks the list to append from its end. An entry among as
many last ones as have been walked counts as in place, others go in front of
as many last ones. This is right while each that was walked has a place of its
own; an entry that is repeated has not, and the entries before the repeat are
off by one.

What is said about the lists is about their JSON texts, so the functions are
compared with those on lists of texts first.
-/

namespace GenieAcs

namespace SessionContext

variable {P K : Type} [DecidableEq K] {json : P → K}

/-! ## Lists of texts -/

theorem dropSame_map (text : K) (rest steps : Nat) :
    ∀ (l : List P) (keep modified : Bool),
      dropSame id text rest steps (l.map json, keep, modified)
        = ((dropSame json text rest steps (l, keep, modified)).1.map json,
            (dropSame json text rest steps (l, keep, modified)).2) := by
  induction steps with
  | zero => exact fun _ _ _ => rfl
  | succ j ih =>
      intro l keep modified
      unfold dropSame
      rw [List.getElem?_map]
      cases l[j]? with
      | none => exact ih l keep modified
      | some q =>
          simp only [Option.map_some, id_eq, List.length_map]
          split_ifs
          · exact ih l false modified
          · rw [List.eraseIdx_map]
            exact ih (l.eraseIdx j) keep true
          · exact ih l keep modified

omit [DecidableEq K] in
theorem spliceAt_map (l : List P) (start : Int) (p : P) :
    (spliceAt l start p).map json = spliceAt (l.map json) start (json p) := by
  rw [spliceAt, spliceAt, List.map_insertIdx, List.length_map]

theorem appendFrom_map (before : List P) :
    ∀ (rest : Nat) (l : List P) (modified : Bool),
      appendFrom id rest (before.map json) (l.map json, modified)
        = ((appendFrom json rest before (l, modified)).1.map json,
            (appendFrom json rest before (l, modified)).2) := by
  induction before with
  | nil => exact fun _ _ _ => rfl
  | cons p before ih =>
      intro rest l modified
      rw [List.map_cons]
      unfold appendFrom
      simp only [id_eq, List.length_map, dropSame_map]
      split_ifs
      · rw [← spliceAt_map]
        exact ih (rest + 1) _ true
      · exact ih (rest + 1) _ _

/-- The texts and the flag are those of the texts. -/
theorem appendProvisions_map (json : P → K) (original toAppend : List P) :
    appendProvisions id (original.map json) (toAppend.map json)
      = ((appendProvisions json original toAppend).1.map json,
          (appendProvisions json original toAppend).2) := by
  rw [appendProvisions, ← List.map_reverse]
  exact appendFrom_map toAppend.reverse 1 original false

theorem dropSame_unmodified (text : K) (rest steps : Nat) :
    ∀ r : List P × Bool × Bool, (dropSame json text rest steps r).2.2 = false →
      (dropSame json text rest steps r).1 = r.1 ∧ r.2.2 = false := by
  induction steps with
  | zero => exact fun _ h => ⟨rfl, h⟩
  | succ j ih =>
      rintro ⟨l, keep, modified⟩ h
      unfold dropSame at h ⊢
      cases hq : l[j]? with
      | none =>
          rw [hq] at h
          exact ih _ h
      | some q =>
          rw [hq] at h
          dsimp only at h ⊢
          split_ifs at h ⊢
          · exact ih _ h
          · cases (ih _ h).2
          · exact ih _ h

/-- A list that is not modified is what it was. -/
theorem appendFrom_unmodified (json : P → K) (before : List P) :
    ∀ (rest : Nat) (r : List P × Bool), (appendFrom json rest before r).2 = false →
      (appendFrom json rest before r).1 = r.1 ∧ r.2 = false := by
  induction before with
  | nil => exact fun _ _ h => ⟨rfl, h⟩
  | cons p before ih =>
      rintro rest ⟨l, modified⟩ h
      unfold appendFrom at h ⊢
      dsimp only at h ⊢
      split_ifs at h ⊢
      · cases (ih _ _ h).2
      · obtain ⟨hl, hm⟩ := ih _ _ h
        obtain ⟨hd, hdm⟩ := dropSame_unmodified _ _ _ _ hm
        exact ⟨hl.trans hd, hdm⟩

/-! ## One round -/

section

variable {a : Nat} {p q : K} {l l1 l2 : List K} {m : Bool}

theorem dropSame_none (rest steps : Nat) (keep : Bool)
    (h : ∀ i < steps, l[i]? ≠ some p) :
    dropSame id p rest steps (l, keep, m) = (l, keep, m) := by
  induction steps with
  | zero => rfl
  | succ j ih =>
      have hrest := ih fun i hi => h i (Nat.lt_succ_of_lt hi)
      unfold dropSame
      cases hq : l[j]? with
      | none => exact hrest
      | some q =>
          have hne : q ≠ p := fun heq => h j (Nat.lt_succ_self j) (heq ▸ hq)
          simpa only [id_eq, if_neg hne] using hrest

/-- An entry is in place if fewer than `rest` entries are behind it. -/
theorem dropSame_split (h1 : p ∉ l1) (h2 : p ∉ l2) (rest steps : Nat) :
    l1.length < steps →
      dropSame id p rest steps (l1 ++ p :: l2, true, m)
        = if l2.length < rest then (l1 ++ p :: l2, false, m)
          else (l1 ++ l2, true, true) := by
  induction steps with
  | zero => exact fun h => absurd h (Nat.not_lt_zero _)
  | succ j ih =>
      intro hlt
      unfold dropSame
      rcases Nat.eq_or_lt_of_le (Nat.le_of_lt_succ hlt) with rfl | hlt
      · rw [List.getElem?_append_right (Nat.le_refl _), Nat.sub_self, List.getElem?_cons_zero]
        have hbefore : ∀ (t : List K) (i : Nat), i < l1.length → (l1 ++ t)[i]? ≠ some p := by
          intro t i hi heq
          rw [List.getElem?_append_left hi] at heq
          exact h1 (List.mem_of_getElem? heq)
        have hlen : (l1 ++ p :: l2).length ≤ l1.length + rest ↔ l2.length < rest := by
          rw [List.length_append, List.length_cons]
          omega
        simp only [id_eq, Bool.not_true, Bool.false_or, if_true, decide_eq_true_eq, hlen]
        split_ifs
        · exact dropSame_none rest l1.length false (hbefore _)
        · rw [List.eraseIdx_append_of_length_le (Nat.le_refl _), Nat.sub_self,
            List.eraseIdx_cons_zero]
          exact dropSame_none rest l1.length true (hbefore _)
      · cases hq : (l1 ++ p :: l2)[j]? with
        | none => exact ih hlt
        | some q =>
            have hne : q ≠ p := by
              rintro rfl
              rw [List.getElem?_append_right (Nat.le_of_lt hlt)] at hq
              obtain ⟨n, hn⟩ := Nat.exists_eq_succ_of_ne_zero (Nat.sub_ne_zero_of_lt hlt)
              rw [hn, List.getElem?_cons_succ] at hq
              exact h2 (List.mem_of_getElem? hq)
            simpa only [id_eq, if_neg hne] using ih hlt

/-- Where an entry goes when `a` have been walked: in front of as many, counted
from the end. In a shorter list the count wraps. -/
def slot (a len : Nat) : Nat := if len < a then len + len - a else len - a

theorem slot_le (a len : Nat) : slot a len ≤ len := by
  unfold slot
  split_ifs <;> omega

omit [DecidableEq K] in
theorem spliceAt_slot :
    spliceAt l (l.length - ((a + 1 : Nat) : Int) + 1) p = l.insertIdx (slot a l.length) p := by
  rw [spliceAt, slot]
  congr 1
  split_ifs <;> omega

/-- One round of the loop over the list to append. -/
def appendOne (a : Nat) (p : K) (r : List K × Bool) : List K × Bool :=
  match dropSame id p (a + 1) r.1.length (r.1, true, r.2) with
  | (l, keep, m) =>
      if keep then (l.insertIdx (slot a l.length) p, true) else (l, m)

theorem appendFrom_cons (p : K) (before : List K) (r : List K × Bool) :
    appendFrom id (a + 1) (p :: before) r = appendFrom id (a + 2) before (appendOne a p r) := by
  obtain ⟨l, m⟩ := r
  rw [appendFrom]
  simp only [id_eq, appendOne]
  obtain ⟨l', keep, m'⟩ := dropSame id p (a + 1) l.length (l, true, m)
  simp only
  split_ifs
  · rw [spliceAt_slot]
  · rfl

theorem appendOne_stays (h1 : p ∉ l1) (h2 : p ∉ l2) (h : l2.length ≤ a) :
    appendOne a p (l1 ++ p :: l2, m) = (l1 ++ p :: l2, m) := by
  unfold appendOne
  rw [dropSame_split h1 h2 _ _ (by simp), if_pos (by omega)]
  rfl

theorem appendOne_moves (h1 : p ∉ l1) (h2 : p ∉ l2) (h : a < l2.length) :
    appendOne a p (l1 ++ p :: l2, m)
      = ((l1 ++ l2).insertIdx (slot a (l1 ++ l2).length) p, true) := by
  unfold appendOne
  rw [dropSame_split h1 h2 _ _ (by simp), if_neg (by omega)]
  rfl

theorem appendOne_new (h : p ∉ l) :
    appendOne a p (l, m) = (l.insertIdx (slot a l.length) p, true) := by
  unfold appendOne
  rw [dropSame_none _ _ _ fun i _ heq => h (List.mem_of_getElem? heq)]
  rfl

end

/-! ## What should come out -/

section

variable {original after before l l1 l2 : List K} {p q : K} {m : Bool}

/-- The former entries that are not appended, and those appended, each where it
is last. -/
def appended (original toAppend : List K) : List K :=
  original.filter (· ∉ toAppend) ++ toAppend.dedup

/-- An entry lands where it should: nothing behind it is repeated, or it is in
place, or its slot wraps around to its place. -/
def Lands (original : List K) (p : K) (after : List K) : Prop :=
  let former := original.filter (· ∉ after)
  let repeats := after.length - after.dedup.length
  repeats = 0 ∨ former.getLast? = some p
    ∨ p ∉ original ∧ (repeats = former.length + after.dedup.length
      ∨ former = [] ∧ after.dedup.length ≤ repeats)

omit [DecidableEq K] in
theorem insertIdx_append_length (l1 l2 : List K) (p : K) :
    (l1 ++ l2).insertIdx l1.length p = l1 ++ p :: l2 := by
  induction l1 with
  | nil => rfl
  | cons q l1 ih => simpa using ih

theorem length_dedup_le (l : List K) : l.dedup.length ≤ l.length := (List.dedup_sublist l).length_le

theorem appended_nodup (h : original.Nodup) (t : List K) : (appended original t).Nodup := by
  rw [appended, List.nodup_append]
  refine ⟨h.filter _, List.nodup_dedup t, ?_⟩
  rintro x hx _ hy rfl
  have hnot := (List.mem_filter.mp hx).2
  simp [List.mem_dedup.mp hy] at hnot

theorem filter_cons_of_mem (h : p ∈ after) :
    original.filter (· ∉ p :: after) = original.filter (· ∉ after) := by
  apply List.filter_congr
  intro x _
  by_cases hx : x = p
  · simp [hx, h]
  · simp [hx]

theorem appended_cons_of_mem (h : p ∈ after) :
    appended original (p :: after) = appended original after := by
  rw [appended, appended, filter_cons_of_mem h, List.dedup_cons_of_mem h]

theorem filter_cons_erase :
    original.filter (· ∉ p :: after) = (original.filter (· ∉ after)).filter (· ≠ p) := by
  rw [List.filter_filter]
  apply List.filter_congr
  intro x _
  by_cases hx : x = p <;> simp [hx]

omit [DecidableEq K] in
/-- A list without duplicates has two entries in one order only. -/
theorem not_both (hnodup : l.Nodup) (h : [p, q].Sublist l) (h' : [q, p].Sublist l) : False := by
  induction l with
  | nil => cases h
  | cons x l ih =>
      obtain ⟨hx, hnodup⟩ := List.nodup_cons.mp hnodup
      rcases List.sublist_cons_iff.mp h with h1 | ⟨r, hr, h1⟩
      · rcases List.sublist_cons_iff.mp h' with h2 | ⟨r', hr', h2⟩
        · exact ih hnodup h1 h2
        · obtain ⟨rfl, rfl⟩ := List.cons.inj hr'
          exact hx (h1.subset (List.mem_cons_of_mem _ (List.mem_singleton_self _)))
      · obtain ⟨rfl, rfl⟩ := List.cons.inj hr
        rcases List.sublist_cons_iff.mp h' with h2 | ⟨r', hr', h2⟩
        · exact hx (h2.subset (List.mem_cons_of_mem _ (List.mem_singleton_self _)))
        · obtain ⟨rfl, rfl⟩ := List.cons.inj hr'
          exact hx (h1.subset (List.mem_singleton_self _))

omit [DecidableEq K] in
theorem pair_sublist (hp : p ∈ l1) (hq : q ∈ l2) : [p, q].Sublist (l1 ++ l2) :=
  (List.singleton_sublist.mpr hp).append (List.singleton_sublist.mpr hq)

omit [DecidableEq K] in
theorem insertIdx_eq {n : Nat} (h : n ≤ l.length) : l.insertIdx n p = l.take n ++ p :: l.drop n := by
  have hsplit := insertIdx_append_length (l.take n) (l.drop n) p
  rw [List.take_append_drop, List.length_take, Nat.min_eq_left h] at hsplit
  exact hsplit

/-! ## While all is right -/

structure Right (original after : List K) (r : List K × Bool) : Prop where
  list : r.1 = appended original after
  flag : r.2 = true ↔ r.1 ≠ original

/-- The former entries around one that is appended next. -/
theorem former_split (hnodup : original.Nodup) (hp : p ∈ original) (hafter : p ∉ after) :
    ∃ f1 f2, original.filter (· ∉ after) = f1 ++ p :: f2 ∧ p ∉ f1 ∧ p ∉ f2
      ∧ original.filter (· ∉ p :: after) = f1 ++ f2 := by
  have hmem : p ∈ original.filter (· ∉ after) := List.mem_filter.mpr ⟨hp, by simpa using hafter⟩
  obtain ⟨f1, f2, hf⟩ := List.append_of_mem hmem
  have hnodup' := hnodup.filter (p := fun x => decide (x ∉ after))
  rw [hf] at hnodup'
  obtain ⟨-, hcons, hdisjoint⟩ := List.nodup_append.mp hnodup'
  have h1 : p ∉ f1 := fun h => hdisjoint p h p (List.mem_cons_self ..) rfl
  have h2 : p ∉ f2 := (List.nodup_cons.mp hcons).1
  have hkeep : ∀ f : List K, p ∉ f → f.filter (· ≠ p) = f := by
    intro f hf
    rw [List.filter_eq_self]
    intro x hx
    have hne : x ≠ p := fun heq => hf (heq ▸ hx)
    simpa using hne
  refine ⟨f1, f2, hf, h1, h2, ?_⟩
  rw [filter_cons_erase, hf, List.filter_append, List.filter_cons_of_neg (by simp), hkeep f1 h1,
    hkeep f2 h2]

theorem former_same (after : List K) (hp : p ∉ original) :
    original.filter (· ∉ p :: after) = original.filter (· ∉ after) := by
  apply List.filter_congr
  intro x hx
  have hne : x ≠ p := fun heq => hp (heq ▸ hx)
  simp [hne]

theorem right_again (h : Right original after (l, m)) (hp : p ∈ after) :
    Right original (p :: after) (appendOne after.length p (l, m)) := by
  obtain ⟨hlist, hflag⟩ := h
  obtain rfl : l = appended original after := hlist
  obtain ⟨d1, d2, hd⟩ := List.append_of_mem (List.mem_dedup.mpr hp)
  have hlen := length_dedup_le after
  have hnodup := List.nodup_dedup after
  rw [hd] at hlen hnodup
  obtain ⟨-, hcons, hdisjoint⟩ := List.nodup_append.mp hnodup
  have hsplit : appended original after
      = (original.filter (· ∉ after) ++ d1) ++ p :: d2 := by
    rw [appended, hd, List.append_assoc]
  have h1 : p ∉ original.filter (· ∉ after) ++ d1 := by
    rw [List.mem_append, not_or]
    refine ⟨?_, fun h => hdisjoint p h p (List.mem_cons_self ..) rfl⟩
    simp [hp]
  have hstays := appendOne_stays (a := after.length) (m := m) h1
    (List.nodup_cons.mp hcons).1 (by rw [List.length_append, List.length_cons] at hlen; omega)
  rw [← hsplit] at hstays
  rw [hstays]
  exact ⟨(appended_cons_of_mem hp).symm, hflag⟩

/-- The step lemma while entries land. -/
theorem right_lands (hnodup : original.Nodup) (h : Right original after (l, m))
    (hafter : p ∉ after) (hlands : Lands original p after) :
    Right original (p :: after) (appendOne after.length p (l, m)) := by
  obtain ⟨hlist, hflag⟩ := h
  obtain rfl : l = appended original after := hlist
  have hlen := length_dedup_le after
  have hd : p ∉ after.dedup := fun h => hafter (List.mem_dedup.mp h)
  by_cases hp : p ∈ original
  · obtain ⟨f1, f2, hf, h1, h2, hf'⟩ := former_split hnodup hp hafter
    have hsplit : appended original after = f1 ++ p :: (f2 ++ after.dedup) := by
      rw [appended, hf, List.append_assoc, List.cons_append]
    have happended : appended original (p :: after) = (f1 ++ f2) ++ p :: after.dedup := by
      rw [appended, hf', List.dedup_cons_of_notMem hafter]
    have hbehind : p ∉ f2 ++ after.dedup := by
      rw [List.mem_append, not_or]
      exact ⟨h2, hd⟩
    rcases List.eq_nil_or_concat' f2 with rfl | ⟨f, x, rfl⟩
    · have hstays := appendOne_stays (a := after.length) (m := m) h1 hbehind
        (by simpa using hlen)
      rw [← hsplit] at hstays
      rw [hstays]
      refine ⟨?_, hflag⟩
      rw [happended, List.append_nil, hsplit, List.nil_append]
    · -- an entry that is not last is only moved right without repeats
      have hzero : after.length = after.dedup.length := by
        rcases hlands with hzero | hlast | ⟨hno, -⟩
        · omega
        · rw [hf, show f1 ++ p :: (f ++ [x]) = (f1 ++ p :: f) ++ [x] by simp,
            List.getLast?_concat] at hlast
          exact absurd (Option.some.inj hlast ▸ by simp) h2
        · exact absurd hp hno
      have hmoves := appendOne_moves (a := after.length) (m := m) h1 hbehind
        (by simp only [List.length_append, List.length_singleton]; omega)
      have hslot : slot after.length (f1 ++ ((f ++ [x]) ++ after.dedup)).length
          = (f1 ++ (f ++ [x])).length := by
        unfold slot
        simp only [List.length_append]
        split_ifs <;> omega
      rw [hslot, ← List.append_assoc f1, insertIdx_append_length, ← hsplit] at hmoves
      rw [hmoves]
      refine ⟨happended.symm, iff_of_true rfl ?_⟩
      intro heq
      have hx : x ∈ f ++ [x] := List.mem_append_right _ (List.mem_singleton_self x)
      have hbefore : [p, x].Sublist original := by
        have hsub : [p, x].Sublist (original.filter (· ∉ after)) := by
          rw [hf]
          rw [List.append_cons]
          exact pair_sublist (List.mem_append_right _ (List.mem_singleton_self p)) hx
        exact hsub.trans List.filter_sublist
      refine not_both hnodup hbefore ?_
      rw [← heq]
      exact pair_sublist (List.mem_append_right _ hx) (List.mem_cons_self ..)
  · have hf' := former_same after hp
    have hnew : p ∉ appended original after := by
      rw [appended, List.mem_append, not_or]
      exact ⟨fun h => hp (List.mem_filter.mp h).1, hd⟩
    have hslot : slot after.length (appended original after).length
        = (original.filter (· ∉ after)).length := by
      have hempty : original.filter (· ∉ after) = [] →
          (original.filter (· ∉ after)).length = 0 := fun h => by rw [h]; rfl
      have hlast : (original.filter (· ∉ after)).getLast? ≠ some p := by
        intro hlast
        exact hp (List.mem_filter.mp (List.mem_of_getLast? hlast)).1
      have hnone : after.dedup.length = 0 → after.length = 0 := by
        intro h
        rw [List.length_eq_zero_iff, List.dedup_eq_nil] at h
        rw [h]
        rfl
      unfold slot
      unfold Lands at hlands
      dsimp only at hlands
      rw [appended, List.length_append]
      rcases hlands with hzero | hlast' | ⟨-, hwrap | ⟨hnil, hwrap⟩⟩
      · split_ifs <;> omega
      · exact absurd hlast' hlast
      · split_ifs <;> omega
      · have := hempty hnil
        split_ifs <;> omega
    rw [appendOne_new hnew, hslot]
    rw [show (appended original after).insertIdx (original.filter (· ∉ after)).length p
      = original.filter (· ∉ after) ++ p :: after.dedup from insertIdx_append_length _ _ p]
    refine ⟨?_, iff_of_true rfl ?_⟩
    · rw [appended, hf', List.dedup_cons_of_notMem hafter]
    · intro heq
      exact hp (heq ▸ List.mem_append_right _ (List.mem_cons_self ..))

/-! ## Once something is wrong -/

/-- All that was walked is among as many last entries. -/
def Window (after l : List K) : Prop :=
  ∃ l1 l2, l = l1 ++ l2 ∧ l2.length ≤ after.length ∧ after ⊆ l2

/-- An appended entry is in front of one that it should be behind. -/
structure Wrong (after l : List K) : Prop where
  nodup : l.Nodup
  window : Window after l
  order : ∃ p ∈ after, ∃ q, [p, q].Sublist l ∧ (q ∉ after ∨ [q, p].Sublist after.dedup)

/-- Where a round leaves the entry: where it was, or in its slot. -/
theorem appendOne_cases (hnodup : l.Nodup) (a : Nat) (p : K) (m : Bool) :
    (∃ l1 l2, l = l1 ++ p :: l2 ∧ l2.length ≤ a ∧ (appendOne a p (l, m)).1 = l)
    ∨ ∃ l', p ∉ l' ∧ l'.Sublist l ∧ (∀ x ∈ l, x ≠ p → x ∈ l')
      ∧ ((∃ l1 l2, l = l1 ++ p :: l2 ∧ a < l2.length ∧ l' = l1 ++ l2) ∨ l' = l)
      ∧ (appendOne a p (l, m)).1
        = l'.take (slot a l'.length) ++ p :: l'.drop (slot a l'.length) := by
  by_cases hp : p ∈ l
  · obtain ⟨l1, l2, rfl⟩ := List.append_of_mem hp
    obtain ⟨-, hcons, hdisjoint⟩ := List.nodup_append.mp hnodup
    have h1 : p ∉ l1 := fun h => hdisjoint p h p (List.mem_cons_self ..) rfl
    have h2 : p ∉ l2 := (List.nodup_cons.mp hcons).1
    rcases Nat.lt_or_ge a l2.length with hlt | hle
    · refine Or.inr ⟨l1 ++ l2, ?_, ?_, ?_, Or.inl ⟨l1, l2, rfl, hlt, rfl⟩, ?_⟩
      · rw [List.mem_append, not_or]
        exact ⟨h1, h2⟩
      · exact (List.Sublist.refl l1).append (List.sublist_cons_self p l2)
      · intro x hx hne
        rcases List.mem_append.mp hx with hx | hx
        · exact List.mem_append_left _ hx
        · exact List.mem_append_right _ ((List.mem_cons.mp hx).resolve_left hne)
      · rw [appendOne_moves h1 h2 hlt, insertIdx_eq (slot_le ..)]
    · exact Or.inl ⟨l1, l2, rfl, hle, by rw [appendOne_stays h1 h2 hle]⟩
  · refine Or.inr ⟨l, hp, List.Sublist.refl l, fun x hx _ => hx, Or.inr rfl, ?_⟩
    rw [appendOne_new hp, insertIdx_eq (slot_le ..)]

theorem nodup_appendOne (hnodup : l.Nodup) (a : Nat) (p : K) (m : Bool) :
    (appendOne a p (l, m)).1.Nodup := by
  rcases appendOne_cases hnodup a p m with ⟨-, -, -, -, heq⟩ | ⟨l', hp, hsub, -, -, heq⟩
  · rw [heq]
    exact hnodup
  · have hl' := hnodup.sublist hsub
    rw [heq, List.nodup_middle, List.nodup_cons, List.take_append_drop]
    exact ⟨hp, hl'⟩

omit [DecidableEq K] in
/-- The window is not touched by a removal in front of it. -/
theorem window_stays {b l' : List K} (hb : b <:+ l) (hlen : b.length ≤ after.length)
    (hcases : (∃ l1 l2, l = l1 ++ p :: l2 ∧ after.length < l2.length ∧ l' = l1 ++ l2) ∨ l' = l) :
    b <:+ l' := by
  rcases hcases with ⟨l1, l2, hl, hlt, rfl⟩ | rfl
  · have hend : b <:+ l2 := by
      have hl2 : l2 <:+ l := ⟨l1 ++ [p], by rw [hl, List.append_assoc]; rfl⟩
      exact List.suffix_of_suffix_length_le hb hl2 (by omega)
    exact hend.trans (List.suffix_append l1 l2)
  · exact hb

theorem window_appendOne (hnodup : l.Nodup) (h : Window after l) (p : K) (m : Bool) :
    Window (p :: after) (appendOne after.length p (l, m)).1 := by
  obtain ⟨b1, b2, hb, hlen, hsub⟩ := h
  rcases appendOne_cases hnodup after.length p m with
    ⟨l1, l2, hl, hbehind, heq⟩ | ⟨l', hp, -, hkeep, hcases, heq⟩
  · rw [heq]
    -- the longer one of the two ends has both
    rcases List.suffix_or_suffix_of_suffix (⟨b1, hb.symm⟩ : b2 <:+ l)
      (⟨l1, hl.symm⟩ : p :: l2 <:+ l) with hle | hle
    · refine ⟨l1, p :: l2, hl, ?_, ?_⟩
      · rw [List.length_cons, List.length_cons]
        omega
      · exact List.cons_subset.mpr
          ⟨List.mem_cons_self .., fun x hx => hle.subset (hsub hx)⟩
    · refine ⟨b1, b2, hb, ?_, ?_⟩
      · rw [List.length_cons]
        omega
      · exact List.cons_subset.mpr ⟨hle.subset (List.mem_cons_self ..), hsub⟩
  · rw [heq]
    by_cases hshort : l'.length < after.length
    · -- a list this short is a window itself
      refine ⟨[], _, (List.nil_append _).symm, ?_, ?_⟩
      · simp only [List.length_append, List.length_cons, List.length_take, List.length_drop]
        omega
      · refine List.cons_subset.mpr ⟨by simp, fun x hx => ?_⟩
        by_cases hxp : x = p
        · simp [hxp]
        · have hx' := hkeep x (hb ▸ List.mem_append_right _ (hsub hx)) hxp
          rw [← List.take_append_drop (slot after.length l'.length) l'] at hx'
          rcases List.mem_append.mp hx' with hx' | hx'
          · exact List.mem_append_left _ hx'
          · exact List.mem_append_right _ (List.mem_cons_of_mem p hx')
    · have hslot : slot after.length l'.length = l'.length - after.length := if_neg hshort
      have hsuffix := window_stays ⟨b1, hb.symm⟩ hlen hcases
      refine ⟨_, _, rfl, ?_, ?_⟩
      · rw [List.length_cons, List.length_drop, List.length_cons, hslot]
        omega
      · refine List.cons_subset.mpr ⟨List.mem_cons_self .., fun x hx => ?_⟩
        have hdrop : b2 <:+ l'.drop (slot after.length l'.length) := by
          refine List.suffix_of_suffix_length_le hsuffix (List.drop_suffix ..) ?_
          rw [List.length_drop, hslot]
          omega
        exact List.mem_cons_of_mem p (hdrop.subset (hsub hx))

theorem dedup_sublist_cons (p : K) (after : List K) : after.dedup.Sublist (p :: after).dedup := by
  by_cases hp : p ∈ after
  · rw [List.dedup_cons_of_mem hp]
  · rw [List.dedup_cons_of_notMem hp]
    exact List.sublist_cons_self ..

/-- The step lemma for what went wrong. -/
theorem wrong_appendOne (h : Wrong after l) (p : K) (m : Bool) :
    Wrong (p :: after) (appendOne after.length p (l, m)).1 := by
  obtain ⟨hnodup, hwindow, x, hx, y, horder, hy⟩ := h
  refine ⟨nodup_appendOne hnodup _ p m, window_appendOne hnodup hwindow p m,
    x, List.mem_cons_of_mem p hx, y, ?_, ?_⟩
  · obtain ⟨b1, b2, hb, hlen, hsub⟩ := hwindow
    rcases appendOne_cases hnodup after.length p m with
      ⟨-, -, -, -, heq⟩ | ⟨l', hp, hsub', hkeep, hcases, heq⟩
    · rw [heq]
      exact horder
    · -- both are in the window
      have horder' : [x, y].Sublist b2 := by
        rw [hb] at horder hnodup
        obtain ⟨r1, r2, hr, h1, h2⟩ := List.sublist_append_iff.mp horder
        cases r1 with
        | nil => exact hr ▸ h2
        | cons z r1 =>
            obtain ⟨rfl, -⟩ := List.cons.inj hr
            have hin := h1.subset (List.mem_cons_self ..)
            exact absurd rfl ((List.nodup_append.mp hnodup).2.2 x hin x (hsub hx))
      have hsuffix := window_stays ⟨b1, hb.symm⟩ hlen hcases
      rw [heq]
      refine (horder'.trans hsuffix.sublist).trans ?_
      conv_lhs => rw [← List.take_append_drop (slot after.length l'.length) l']
      exact (List.Sublist.refl _).append (List.sublist_cons_self p _)
  · rcases hy with hy | hy
    · by_cases hyp : y = p
      · -- it is appended in front of the one that it is behind of
        right
        subst hyp
        rw [List.dedup_cons_of_notMem hy]
        exact (List.singleton_sublist.mpr (List.mem_dedup.mpr hx)).cons_cons y
      · exact Or.inl fun hmem => (List.mem_cons.mp hmem).elim hyp hy
    · exact Or.inr (hy.trans (dedup_sublist_cons p after))

omit [DecidableEq K] in
theorem slot_pair {n : Nat} (hq : q ∈ l.drop n) : [p, q].Sublist (l.take n ++ p :: l.drop n) := by
  rw [List.append_cons]
  exact pair_sublist (List.mem_append_right _ (List.mem_singleton_self p)) hq

/-- The first entry that does not land is in front of one that it should be
behind, or behind one that it should be in front of. -/
theorem wrong_order (hnodup : original.Nodup) (hafter : p ∉ after)
    (hlands : ¬ Lands original p after) :
    ∃ x ∈ p :: after, ∃ y,
      [x, y].Sublist (appendOne after.length p (appended original after, m)).1
        ∧ (y ∉ p :: after ∨ [y, x].Sublist (p :: after).dedup) := by
  have hlen := length_dedup_le after
  have hd : p ∉ after.dedup := fun h => hafter (List.mem_dedup.mp h)
  have hformer : ∀ f : List K, (∀ y ∈ f, y ∈ original.filter (· ∉ after)) → p ∉ f → ∀ y ∈ f,
      y ∉ p :: after := by
    intro f hf hpf y hy
    rw [List.mem_cons, not_or]
    exact ⟨fun heq => hpf (heq ▸ hy), by simpa using (List.mem_filter.mp (hf y hy)).2⟩
  unfold Lands at hlands
  simp only [not_or] at hlands
  obtain ⟨hrepeats, hlast, hwraps⟩ := hlands
  by_cases hp : p ∈ original
  · obtain ⟨f1, f2, hf, h1, h2, -⟩ := former_split hnodup hp hafter
    have hsplit : appended original after = f1 ++ p :: (f2 ++ after.dedup) := by
      rw [appended, hf, List.append_assoc, List.cons_append]
    have hbehind : p ∉ f2 ++ after.dedup := by
      rw [List.mem_append, not_or]
      exact ⟨h2, hd⟩
    refine ⟨p, List.mem_cons_self .., ?_⟩
    rcases Nat.lt_or_ge after.length (f2 ++ after.dedup).length with hlt | hle
    · -- its slot is among the former entries
      have hmoves := appendOne_moves (m := m) h1 hbehind hlt
      rw [insertIdx_eq (slot_le ..), ← List.append_assoc] at hmoves
      rw [hsplit, hmoves]
      generalize hn : slot after.length ((f1 ++ f2) ++ after.dedup).length = n
      have hslot : n < (f1 ++ f2).length := by
        simp only [← hn, slot, List.length_append] at hlt ⊢
        split_ifs <;> omega
      obtain ⟨y, hy⟩ := List.exists_mem_of_length_pos
        (l := (f1 ++ f2).drop n) (by rw [List.length_drop]; omega)
      refine ⟨y, slot_pair ?_, Or.inl ?_⟩
      · rw [List.drop_append_of_le_length (Nat.le_of_lt hslot)]
        exact List.mem_append_left _ hy
      · refine hformer (f1 ++ f2) (fun x hx => ?_) ?_ y (List.mem_of_mem_drop hy)
        · rw [hf]
          exact List.mem_append.mpr ((List.mem_append.mp hx).imp_right (List.mem_cons_of_mem p))
        · rw [List.mem_append, not_or]
          exact ⟨h1, h2⟩
    · -- it stays in front of a former entry
      have hstays := appendOne_stays (m := m) h1 hbehind hle
      rw [hsplit, hstays]
      obtain ⟨y, f, rfl⟩ := List.exists_cons_of_ne_nil (l := f2) (by
        rintro rfl
        rw [hf, List.getLast?_concat] at hlast
        exact hlast rfl)
      refine ⟨y, ?_, Or.inl (hformer (y :: f) (fun x hx => ?_) h2 y (List.mem_cons_self ..))⟩
      · rw [List.append_cons]
        exact pair_sublist (List.mem_append_right _ (List.mem_singleton_self p))
          (List.mem_append_left _ (List.mem_cons_self ..))
      · rw [hf]
        exact List.mem_append_right _ (List.mem_cons_of_mem p hx)
  · have hnew : p ∉ appended original after := by
      rw [appended, List.mem_append, not_or]
      exact ⟨fun h => hp (List.mem_filter.mp h).1, hd⟩
    rw [appendOne_new hnew, insertIdx_eq (slot_le ..), appended]
    generalize hF : original.filter (· ∉ after) = former at hwraps
    generalize hn : slot after.length (former ++ after.dedup).length = n
    rcases Nat.lt_trichotomy n former.length with hlt | heq | hgt
    · obtain ⟨y, hy⟩ := List.exists_mem_of_length_pos
        (l := former.drop n) (by rw [List.length_drop]; omega)
      refine ⟨p, List.mem_cons_self .., y, slot_pair ?_, Or.inl ?_⟩
      · rw [List.drop_append_of_le_length (Nat.le_of_lt hlt)]
        exact List.mem_append_left _ hy
      · refine hformer former (fun x hx => hF ▸ hx) ?_ y (List.mem_of_mem_drop hy)
        rw [← hF]
        exact fun h => hp (List.mem_filter.mp h).1
    · refine absurd ⟨hp, ?_⟩ hwraps
      have hnil : former.length = 0 → former = [] := List.length_eq_zero_iff.mp
      simp only [← hn, slot, List.length_append] at heq
      by_cases hshort : former.length + after.dedup.length < after.length
      · rw [if_pos hshort] at heq
        by_cases hempty : former.length = 0
        · exact Or.inr ⟨hnil hempty, by omega⟩
        · exact Or.inl (by omega)
      · rw [if_neg hshort] at heq
        omega
    · -- its slot is behind the first of those appended
      have hpos : 0 < after.dedup.length := by
        have hle := slot_le after.length (former ++ after.dedup).length
        rw [List.length_append] at hle hn
        omega
      obtain ⟨x, d, hx⟩ := List.exists_cons_of_length_pos hpos
      refine ⟨x, List.mem_cons_of_mem p (List.mem_dedup.mp (hx ▸ List.mem_cons_self ..)), p, ?_,
        Or.inr ?_⟩
      · refine pair_sublist ?_ (List.mem_cons_self ..)
        rw [List.take_append, hx, ← Nat.sub_add_cancel (Nat.sub_pos_of_lt hgt), List.take_succ_cons]
        exact List.mem_append_right _ (List.mem_cons_self ..)
      · rw [List.dedup_cons_of_notMem hafter, hx]
        exact (List.singleton_sublist.mpr (List.mem_cons_self ..)).cons_cons p

/-- The step lemma for the entry that does not land. -/
theorem right_misses (hnodup : original.Nodup) (h : Right original after (l, m))
    (hafter : p ∉ after) (hlands : ¬ Lands original p after) :
    Wrong (p :: after) (appendOne after.length p (l, m)).1 := by
  obtain rfl : l = appended original after := h.list
  have hwindow : Window after (appended original after) :=
    ⟨_, _, rfl, length_dedup_le after, fun x hx => List.mem_dedup.mpr hx⟩
  exact ⟨nodup_appendOne (appended_nodup hnodup after) _ p m,
    window_appendOne (appended_nodup hnodup after) hwindow p m,
    wrong_order hnodup hafter hlands⟩

/-- What went wrong is not what should come out. -/
theorem wrong_ne (h : Wrong after l) : l ≠ appended original after := by
  rintro rfl
  obtain ⟨hnodup, -, x, hx, y, horder, hy⟩ := h
  refine not_both hnodup horder ?_
  rcases hy with hy | hy
  · have hmem := horder.subset (List.mem_cons_of_mem _ (List.mem_singleton_self y))
    rcases List.mem_append.mp hmem with hformer | hmem
    · exact pair_sublist hformer (List.mem_dedup.mpr hx)
    · exact absurd (List.mem_dedup.mp hmem) hy
  · exact hy.trans (List.sublist_append_right ..)

/-! ## Whole runs -/

theorem wrong_run (before : List K) :
    ∀ (after l : List K) (m : Bool), Wrong after l →
      Wrong (before.reverse ++ after)
        (appendFrom id (after.length + 1) before (l, m)).1 := by
  induction before with
  | nil => exact fun _ _ _ h => h
  | cons p before ih =>
      intro after l m h
      rw [appendFrom_cons, List.reverse_cons, List.append_assoc]
      exact ih (p :: after) _ (appendOne after.length p (l, m)).2
        (wrong_appendOne h p m)

theorem right_run (hnodup : original.Nodup) (before : List K) :
    ∀ (after l : List K) (m : Bool),
      (∀ q c, q :: c <:+ before.reverse ++ after → after <:+ c → q ∉ c → Lands original q c) →
      Right original after (l, m) →
      Right original (before.reverse ++ after)
        (appendFrom id (after.length + 1) before (l, m)) := by
  induction before with
  | nil => exact fun _ _ _ _ h => h
  | cons p before ih =>
      intro after l m hlands h
      rw [List.reverse_cons, List.append_assoc] at hlands ⊢
      rw [appendFrom_cons]
      refine ih (p :: after) _ (appendOne after.length p (l, m)).2 ?_ ?_
      · exact fun q c hq hc => hlands q c hq ((List.suffix_cons p after).trans hc)
      · by_cases hp : p ∈ after
        · exact right_again h hp
        · refine right_lands hnodup h hp (hlands p after ?_ List.suffix_rfl hp)
          exact List.suffix_append before.reverse (p :: after)

/-- If all comes out right, each entry landed. -/
theorem lands_of_right (hnodup : original.Nodup) (before : List K) :
    ∀ (after l : List K) (m : Bool), Right original after (l, m) →
      (appendFrom id (after.length + 1) before (l, m)).1
        = appended original (before.reverse ++ after) →
      ∀ q c, q :: c <:+ before.reverse ++ after → after <:+ c → q ∉ c → Lands original q c := by
  induction before with
  | nil =>
      intro after l m _ _ q c hq hc _
      have h1 := hq.length_le
      have h2 := hc.length_le
      rw [List.length_cons] at h1
      simp only [List.reverse_nil, List.nil_append] at h1
      omega
  | cons p before ih =>
      intro after l m h hright q c hq hc hqc
      rw [List.reverse_cons, List.append_assoc] at hright hq
      rw [appendFrom_cons] at hright
      have hp : p ∉ after → Lands original p after := by
        intro hp
        by_contra hlands
        have hwrong := right_misses hnodup h hp hlands
        exact wrong_ne (wrong_run before (p :: after) _ _ hwrong) hright
      have hstep : Right original (p :: after) (appendOne after.length p (l, m)) := by
        by_cases hmem : p ∈ after
        · exact right_again h hmem
        · exact right_lands hnodup h hmem (hp hmem)
      have hsuffix : p :: after <:+ before.reverse ++ (p :: after) := List.suffix_append ..
      rcases Nat.lt_or_ge c.length (p :: after).length with hlt | hge
      · -- nothing is walked between them
        have hlen : (q :: c).length = (p :: after).length := by
          have := hc.length_le
          simp only [List.length_cons] at hlt ⊢
          omega
        have heq := (List.suffix_of_suffix_length_le hq hsuffix (Nat.le_of_eq hlen)).eq_of_length
          hlen
        obtain ⟨rfl, rfl⟩ := List.cons.inj heq
        exact hp hqc
      · have hc' : p :: after <:+ c :=
          List.suffix_of_suffix_length_le hsuffix ((List.suffix_cons q c).trans hq) hge
        exact ih (p :: after) _ _ hstep hright q c hq hc' hqc

/-- Where all is appended, every entry stays. -/
theorem appended_again (hnodup : original.Nodup) {t : List K} (before : List K) :
    ∀ (after : List K), before.reverse ++ after = t →
      appendFrom id (after.length + 1) before (appended original t, m)
        = (appended original t, m) := by
  induction before with
  | nil => exact fun _ _ => rfl
  | cons p before ih =>
      intro after ht
      rw [List.reverse_cons, List.append_assoc] at ht
      have hmem : p ∈ (p :: after).dedup := List.mem_dedup.mpr (List.mem_cons_self ..)
      obtain ⟨d1, d2, hd⟩ := List.append_of_mem hmem
      have hlen := length_dedup_le (p :: after)
      rw [hd, List.length_append, List.length_cons, List.length_cons] at hlen
      have hsuffix : (p :: after).dedup <:+ appended original t := by
        refine List.IsSuffix.trans ?_ (List.suffix_append ..)
        rw [← ht, List.singleton_append, List.dedup_append]
        exact List.suffix_union_right ..
      obtain ⟨l1, hl⟩ := hsuffix
      rw [hd, ← List.append_assoc] at hl
      have hnodup' := appended_nodup hnodup t
      rw [← hl] at hnodup'
      obtain ⟨-, hcons, hdisjoint⟩ := List.nodup_append.mp hnodup'
      have h1 : p ∉ l1 ++ d1 := fun h => hdisjoint p h p (List.mem_cons_self ..) rfl
      rw [appendFrom_cons, ← hl,
        appendOne_stays h1 (List.nodup_cons.mp hcons).1 (by omega), hl]
      exact ih (p :: after) ht

end

/-- It appends and removes duplicates exactly if, from the end of the list to
append, each entry lands. -/
theorem appendProvisions_appends (original toAppend : List P)
    (hnodup : (original.map json).Nodup) :
    ((appendProvisions json original toAppend).1.map json
          = (original.map json).filter (· ∉ toAppend.map json) ++ (toAppend.map json).dedup
        ∧ ((appendProvisions json original toAppend).1.map json).Nodup
        ∧ ((appendProvisions json original toAppend).2 = true
          ↔ (appendProvisions json original toAppend).1.map json ≠ original.map json)
        ∧ appendProvisions json (appendProvisions json original toAppend).1 toAppend
          = ((appendProvisions json original toAppend).1, false))
      ↔ ∀ (p : K) (after : List K), p :: after <:+ toAppend.map json → p ∉ after →
        Lands (original.map json) p after := by
  have htexts := appendProvisions_map json original toAppend
  generalize hr : appendProvisions json original toAppend = r at htexts
  have hstart : Right (original.map json) [] (original.map json, false) := by
    refine ⟨?_, ?_⟩ <;> simp [appended]
  have hend : (toAppend.map json).reverse.reverse ++ [] = toAppend.map json := by simp
  constructor
  · rintro ⟨hlist, -⟩ p after hp hafter
    refine lands_of_right hnodup (toAppend.map json).reverse [] _ false hstart ?_ p after ?_
      (List.nil_suffix) hafter
    · rw [hend]
      exact (congrArg Prod.fst htexts).trans hlist
    · rwa [hend]
  · intro hlands
    have hright := right_run hnodup (toAppend.map json).reverse [] _ false ?_ hstart
    · rw [hend] at hright
      have hrun : appendFrom id 1 (toAppend.map json).reverse (original.map json, false)
          = (r.1.map json, r.2) := htexts
      rw [List.length_nil, Nat.zero_add, hrun] at hright
      obtain ⟨hlist, hflag⟩ := hright
      have hlist' : r.1.map json = appended (original.map json) (toAppend.map json) := hlist
      refine ⟨hlist, hlist' ▸ appended_nodup hnodup _, hflag, ?_⟩
      have hagain := appendProvisions_map json r.1 toAppend
      have hstay : appendFrom id 1 (toAppend.map json).reverse
          (appended (original.map json) (toAppend.map json), false)
            = (appended (original.map json) (toAppend.map json), false) :=
        appended_again hnodup (toAppend.map json).reverse [] hend
      rw [hlist', appendProvisions, hstay] at hagain
      have hsame := (congrArg Prod.snd hagain).symm
      have hkept := appendFrom_unmodified json toAppend.reverse 1 (r.1, false) hsame
      exact Prod.ext hkept.1 hsame
    · intro p c hp _ hpc
      rw [hend] at hp
      exact hlands p c hp hpc

theorem appendProvisions_appends_apart :
    (["x", "y"].map id).Nodup
      ∧ (appendProvisions id ["x", "y"] ["x", "a"]).1.map id = ["y", "x", "a"] := by
  have hnodup : (["x", "y"].map id).Nodup := by decide
  refine ⟨hnodup, ?_⟩
  rw [((appendProvisions_appends ["x", "y"] ["x", "a"] hnodup).mpr ?_).1]
  · decide
  · rintro p after ⟨before, hsplit⟩ -
    -- none is repeated
    refine Or.inl ?_
    have hafter : after.Nodup := by
      have hall : (["x", "a"].map (id : String → String)).Nodup := by decide
      rw [← hsplit] at hall
      exact (List.nodup_cons.mp (List.nodup_append.mp hall).2.1).2
    rw [hafter.dedup, Nat.sub_self]

/-- A repeated entry keeps the one before it from its place. -/
theorem appendProvisions_misplaces :
    (["x", "y"].map (id : String → String)).Nodup
      ∧ (appendProvisions id ["x", "y"] ["a", "b", "b"]).1 = ["x", "a", "y", "b"]
      ∧ ["x", "y"].filter (· ∉ ["a", "b", "b"]) ++ ["a", "b", "b"].dedup
        = ["x", "y", "a", "b"] := by
  decide

end SessionContext

end GenieAcs
