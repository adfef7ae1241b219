import GenieAcs.VersionedMap

/-!
# Suspending and resuming a versioned map

`serialize` stores `getRevisions(k)` for every key and `deserialize` calls
`setRevisions(k, ...)` for each on an empty map. `getRevisions` records the
changes of a key; `setRevisions` replays them up to the last one, so the
array it builds is the stored one without the repeated slots at its end
(`settle`). The histories agree, the newest revision can only go down.

`resume_spec` is the rebuilt map. Its size differences are those of a fresh
map, whatever they were before.
-/

namespace GenieAcs

/-! ## Bits of a mask -/

theorem and_bit_ne_zero {x : BitVec 32} {i : Nat} (hi : i < 32) :
    x &&& bit i ≠ 0#32 ↔ x.getLsbD i = true := by
  constructor
  · intro h
    by_contra hx
    refine h (BitVec.eq_of_getLsbD_eq fun j hj => ?_)
    rw [BitVec.getLsbD_and, bit_getLsbD hi, BitVec.getLsbD_zero]
    by_cases hji : j = i
    · rw [hji, Bool.not_eq_true _ |>.mp hx, Bool.false_and]
    · simp [hji]
  · intro hx h
    have := congrArg (fun y => y.getLsbD i) h
    simp [BitVec.getLsbD_and, bit_getLsbD hi, hx] at this

/-- A mask with a clear sign bit is used up once its remaining bits are clear. -/
theorem sshiftRight_eq_zero {x : BitVec 32} (hx : x.getLsbD 31 = false) {i : Nat} (hi : i < 32) :
    x.sshiftRight (i % 32) = 0#32 ↔ ∀ j, i ≤ j → x.getLsbD j = false := by
  have hmsb : x.msb = false := by rw [BitVec.msb_eq_getLsbD_last]; exact hx
  rw [Nat.mod_eq_of_lt hi, BitVec.sshiftRight_eq_of_msb_false hmsb]
  constructor
  · intro h j hj
    have := congrArg (fun y => y.getLsbD (j - i)) h
    simpa [show i + (j - i) = j by omega] using this
  · intro h
    refine BitVec.eq_of_getLsbD_eq fun j hj => ?_
    rw [BitVec.getLsbD_ushiftRight, h (i + j) (by omega), BitVec.getLsbD_zero]

namespace VersionedMap

variable {K V : Type*} [DecidableEq V]

/-! ## The changes of a revision array -/

/-- The slots from index `i` on that differ from the one before. -/
def changes : Nat → Option V → List (Option V) → List (Nat × Option V)
  | _, _, [] => []
  | i, prev, v :: rest =>
      if v = prev then changes (i + 1) prev rest else (i, v) :: changes (i + 1) v rest

/-- The array without the slots after its last change. -/
def settle : Option V → List (Option V) → List (Option V)
  | _, [] => []
  | prev, v :: rest => if ∀ x ∈ v :: rest, x = prev then [] else v :: settle v rest

omit [DecidableEq V] in
/-- Reading an array whose first slot is preceded by `prev`. -/
def readFrom : Option V → List (Option V) → Nat → Option V
  | prev, [], _ => prev
  | _, v :: _, 0 => v
  | _, v :: rest, i + 1 => readFrom v rest i

theorem changes_index {i : Nat} {prev : Option V} {l : List (Option V)} {j : Nat} {v : Option V}
    (h : (j, v) ∈ changes i prev l) : i ≤ j ∧ j < i + l.length := by
  induction l generalizing i prev with
  | nil => cases h
  | cons x rest ih =>
      rw [changes] at h
      rw [List.length_cons]
      split at h
      · have := ih h; omega
      · rcases List.mem_cons.mp h with heq | hrest
        · obtain ⟨rfl, -⟩ := Prod.mk.inj heq; omega
        · have := ih hrest; omega

theorem changes_eq_nil {i : Nat} {prev : Option V} {l : List (Option V)} :
    changes i prev l = [] ↔ ∀ x ∈ l, x = prev := by
  induction l generalizing i prev with
  | nil => simp [changes]
  | cons v rest ih =>
      rw [changes]
      by_cases hv : v = prev
      · rw [if_pos hv, ih]; simp [hv]
      · simp [hv]

theorem changes_unique {i : Nat} {prev : Option V} {l : List (Option V)} {j : Nat}
    {v w : Option V} (hv : (j, v) ∈ changes i prev l) (hw : (j, w) ∈ changes i prev l) :
    v = w := by
  induction l generalizing i prev with
  | nil => cases hv
  | cons x rest ih =>
      rw [changes] at hv hw
      split at hv
      · rename_i hx
        rw [if_pos hx] at hw
        exact ih hv hw
      · rename_i hx
        rw [if_neg hx] at hw
        rcases List.mem_cons.mp hv with hv' | hv' <;> rcases List.mem_cons.mp hw with hw' | hw'
        · exact (Prod.mk.inj hv').2.trans (Prod.mk.inj hw').2.symm
        · have := changes_index hw'
          have := (Prod.mk.inj hv').1
          omega
        · have := changes_index hv'
          have := (Prod.mk.inj hw').1
          omega
        · exact ih hv' hw'

/-! ## `getRevisions` records the changes -/

omit [DecidableEq V] in
theorem record_delete (res : Revisions V) {i : Nat} (hi : i < 32) (v : Option V) (j : Nat) :
    ((record res i v).delete.getD 0#32).getLsbD j = true ↔
      (res.delete.getD 0#32).getLsbD j = true ∨ (j, (none : Option V)) = (i, v) := by
  cases v with
  | none => simp [record, bit_getLsbD hi]
  | some x => simp [record]

theorem getRevisionsLoop_values (i : Nat) (prev : Option V) (l : List (Option V))
    (res : Revisions V) :
    (getRevisionsLoop i prev l res).2.values =
      res.values ++ (changes i prev l).filterMap fun c => c.2.map (c.1, ·) := by
  induction l generalizing i prev res with
  | nil => simp [getRevisionsLoop, changes]
  | cons v rest ih =>
      rw [getRevisionsLoop, changes]
      split
      · exact ih ..
      · rw [ih, List.filterMap_cons]
        cases v with
        | none => rfl
        | some x => simp [record]

theorem getRevisionsLoop_delete (i : Nat) (prev : Option V) (l : List (Option V))
    (res : Revisions V) (hlen : i + l.length ≤ 32) (j : Nat) :
    ((getRevisionsLoop i prev l res).2.delete.getD 0#32).getLsbD j = true ↔
      (res.delete.getD 0#32).getLsbD j = true ∨ (j, none) ∈ changes i prev l := by
  induction l generalizing i prev res with
  | nil => simp [getRevisionsLoop, changes]
  | cons v rest ih =>
      rw [List.length_cons] at hlen
      rw [getRevisionsLoop, changes]
      split
      · exact ih _ _ _ (by omega)
      · rw [ih _ _ _ (by omega), record_delete _ (by omega), List.mem_cons, or_assoc]

/-- A recorded deletion stays recorded. -/
theorem getRevisionsLoop_delete_isSome {i : Nat} {prev : Option V} {l : List (Option V)}
    {res : Revisions V} (h : res.delete.isSome) :
    (getRevisionsLoop i prev l res).2.delete.isSome := by
  induction l generalizing i prev res with
  | nil => exact h
  | cons v rest ih =>
      rw [getRevisionsLoop]
      split
      · exact ih h
      · cases v with
        | none => exact ih rfl
        | some x => exact ih h

/-- The slots that leave no trace: the loop ends at `NONEXISTENT` without a
deletion, so nothing was ever stored. -/
theorem getRevisionsLoop_blank {i : Nat} {prev : Option V} {l : List (Option V)}
    {res : Revisions V} (hp : (getRevisionsLoop i prev l res).1.isNone)
    (hd : (getRevisionsLoop i prev l res).2.delete.isNone) : prev = none ∧ ∀ x ∈ l, x = none := by
  induction l generalizing i prev res with
  | nil => exact ⟨by simpa [getRevisionsLoop] using hp, fun _ h => by cases h⟩
  | cons v rest ih =>
      rw [getRevisionsLoop] at hp hd
      by_cases hv : v = prev
      · rw [if_pos hv] at hp hd
        obtain ⟨rfl, hrest⟩ := ih hp hd
        exact ⟨rfl, List.forall_mem_cons.mpr ⟨hv, hrest⟩⟩
      · rw [if_neg hv] at hp hd
        obtain ⟨rfl, -⟩ := ih hp hd
        have hsome : (getRevisionsLoop (i + 1) none rest (record res i none)).2.delete.isSome :=
          getRevisionsLoop_delete_isSome rfl
        rw [Option.isNone_iff_eq_none.mp hd] at hsome
        cases hsome

theorem getRevisionsLoop_of_none {i : Nat} {l : List (Option V)} {res : Revisions V}
    (h : ∀ x ∈ l, x = none) : getRevisionsLoop i none l res = (none, res) := by
  induction l generalizing i with
  | nil => rfl
  | cons v rest ih =>
      rw [getRevisionsLoop, if_pos (h v (List.mem_cons_self ..))]
      exact ih fun x hx => h x (List.mem_cons_of_mem _ hx)

theorem revisionsOf_eq_none {s : Slots V} : revisionsOf s = none ↔ s.Vacant := by
  unfold revisionsOf
  constructor
  · intro h
    simp only at h
    split at h
    · rename_i hc
      rw [Bool.and_eq_true] at hc
      exact (getRevisionsLoop_blank hc.1 hc.2).2
    · cases h
  · intro h
    rw [getRevisionsLoop_of_none h]
    rfl

/-- What the object of a key says: its values, its deletions and its mutations
are the changes `cs` of the array. -/
structure Records (r : Revisions V) (cs : List (Nat × Option V)) : Prop where
  value : ∀ j x, InsMap.find j r.values = some x ↔ (j, some x) ∈ cs
  delete : ∀ j, (r.delete.getD 0#32).getLsbD j = true ↔ (j, none) ∈ cs
  mutation : ∀ j, (mutations r).getLsbD j = true ↔ ∃ v, (j, v) ∈ cs

omit [DecidableEq V] in
theorem foldl_bit_getLsbD {l : List (Nat × V)} (h : ∀ e ∈ l, e.1 < 32) (acc : BitVec 32)
    (j : Nat) :
    (l.foldl (fun acc cur => acc ||| bit cur.1) acc).getLsbD j = true ↔
      acc.getLsbD j = true ∨ ∃ x, (j, x) ∈ l := by
  induction l generalizing acc with
  | nil => simp
  | cons e rest ih =>
      obtain ⟨i, y⟩ := e
      rw [List.foldl_cons, ih fun e' he' => h e' (List.mem_cons_of_mem _ he'),
        BitVec.getLsbD_or, bit_getLsbD (h (i, y) (List.mem_cons_self ..)), Bool.or_eq_true,
        decide_eq_true_eq, or_assoc]
      refine or_congr_right ⟨?_, ?_⟩
      · rintro (rfl | ⟨x, hx⟩)
        · exact ⟨y, List.mem_cons_self ..⟩
        · exact ⟨x, List.mem_cons_of_mem _ hx⟩
      · rintro ⟨x, hx⟩
        rcases List.mem_cons.mp hx with heq | hx
        · exact Or.inl (Prod.mk.inj heq).1
        · exact Or.inr ⟨x, hx⟩

theorem revisionsOf_records {s : Slots V} {r : Revisions V} (hlen : s.newest < 31)
    (h : revisionsOf s = some r) : Records r (changes 0 none s.toList) := by
  have hr : r = (getRevisionsLoop 0 none s.toList ⟨[], none⟩).2 := by
    unfold revisionsOf at h
    simp only at h
    split at h
    · cases h
    · exact (Option.some.inj h).symm
  have hbound : 0 + s.toList.length ≤ 31 := by rw [s.length_eq]; omega
  have hval : r.values = (changes 0 none s.toList).filterMap fun c => c.2.map (c.1, ·) := by
    rw [hr, getRevisionsLoop_values, List.nil_append]
  have hmem : ∀ j x, (j, x) ∈ r.values ↔ (j, some x) ∈ changes 0 none s.toList := by
    intro j x
    rw [hval, List.mem_filterMap]
    constructor
    · rintro ⟨⟨j', v⟩, hc, heq⟩
      obtain ⟨x', rfl, hpair⟩ := Option.map_eq_some_iff.mp heq
      obtain ⟨rfl, rfl⟩ := Prod.mk.inj hpair
      exact hc
    · exact fun hc => ⟨(j, some x), hc, rfl⟩
  have hdel : ∀ j, (r.delete.getD 0#32).getLsbD j = true ↔
      (j, none) ∈ changes 0 none s.toList := by
    intro j
    rw [hr, getRevisionsLoop_delete 0 none s.toList ⟨[], none⟩ (by omega) j]
    simp
  refine ⟨fun j x => ?_, hdel, fun j => ?_⟩
  · rw [← hmem]
    refine ⟨InsMap.mem_of_find, fun hm => ?_⟩
    obtain ⟨y, hy⟩ := Option.ne_none_iff_exists'.mp (InsMap.find_ne_none_of_mem hm)
    have := changes_unique ((hmem j y).mp (InsMap.mem_of_find hy)) ((hmem j x).mp hm)
    rw [hy, this]
  · rw [mutations, foldl_bit_getLsbD, hdel]
    · constructor
      · rintro (hn | ⟨x, hx⟩)
        · exact ⟨none, hn⟩
        · exact ⟨some x, (hmem j x).mp hx⟩
      · rintro ⟨v, hv⟩
        cases v with
        | none => exact Or.inl hv
        | some x => exact Or.inr ⟨x, (hmem j x).mpr hv⟩
    · intro e he
      have := (changes_index ((hmem e.1 e.2).mp he)).2
      omega

/-! ## `setRevisions` replays them -/

theorem replay_eq {r : Revisions V} {rest : List (Option V)} {i : Nat}
    {prev v : Option V} (hi : i < 32)
    (hval : ∀ x, InsMap.find i r.values = some x ↔ (i, some x) ∈ changes i prev (v :: rest))
    (hdel : (r.delete.getD 0#32).getLsbD i = true ↔ (i, none) ∈ changes i prev (v :: rest)) :
    replay r i prev = v := by
  have hlater : ∀ w p, (i, w) ∉ changes (i + 1) p rest := by
    intro w p hm
    have := changes_index hm
    omega
  have hmem : ∀ w, (i, w) ∈ changes i prev (v :: rest) ↔ w = v ∧ v ≠ prev := by
    intro w
    rw [changes]
    split
    · rename_i hv
      simp [hlater, hv]
    · rename_i hv
      simp [hlater, hv]
  simp only [hmem] at hval hdel
  simp only [replay, (and_bit_ne_zero hi).trans hdel]
  by_cases hv : v = prev
  · have hnone : InsMap.find i r.values = none := by
      refine Option.eq_none_iff_forall_not_mem.mpr fun x hx => ?_
      exact ((hval x).mp hx).2 hv
    simp [hv, hnone]
  · cases v with
    | none => simp [hv]
    | some x => simp [(hval x).mpr ⟨rfl, hv⟩]

/-- The loop stops exactly when no change is left. -/
theorem setRevisionsLoop_stop {r : Revisions V} {l : List (Option V)} {i : Nat}
    {prev : Option V} (hlen : i + l.length ≤ 31) (hi : i < 32)
    (hmut : ∀ j, i ≤ j → ((mutations r).getLsbD j = true ↔ ∃ v, (j, v) ∈ changes i prev l)) :
    (mutations r).sshiftRight (i % 32) = 0#32 ↔ ∀ x ∈ l, x = prev := by
  have hsign : (mutations r).getLsbD 31 = false := by
    rw [← Bool.not_eq_true, hmut 31 (by omega)]
    rintro ⟨v, hv⟩
    have := changes_index hv
    omega
  rw [sshiftRight_eq_zero hsign hi, ← changes_eq_nil]
  constructor
  · intro h
    refine List.eq_nil_iff_forall_not_mem.mpr fun c hc => ?_
    have hij := (changes_index hc).1
    have := (hmut c.1 hij).mpr ⟨c.2, hc⟩
    rw [h c.1 hij] at this
    cases this
  · intro h j hj
    rw [← Bool.not_eq_true, hmut j hj, h]
    rintro ⟨v, hv⟩
    cases hv

/-- The loop, entered at index `i` with the recorded changes of the suffix `l`,
writes the suffix up to its last change. -/
theorem setRevisionsLoop_eq {r : Revisions V} {l : List (Option V)} {i fuel : Nat}
    {prev : Option V} (hfuel : l.length ≤ fuel) (hlen : i + l.length ≤ 31)
    (hval : ∀ j x, i ≤ j → (InsMap.find j r.values = some x ↔ (j, some x) ∈ changes i prev l))
    (hdel : ∀ j, i ≤ j → ((r.delete.getD 0#32).getLsbD j = true ↔ (j, none) ∈ changes i prev l))
    (hmut : ∀ j, i ≤ j → ((mutations r).getLsbD j = true ↔ ∃ v, (j, v) ∈ changes i prev l))
    (dirty : BitVec 32) :
    ∃ dirty', setRevisionsLoop r fuel i prev dirty = some (settle prev l, dirty') := by
  induction l generalizing i fuel prev dirty with
  | nil =>
      have hstop := setRevisionsLoop_stop hlen (by omega) hmut
      unfold setRevisionsLoop
      exact ⟨dirty, by rw [if_pos (hstop.mpr (by simp)), settle]⟩
  | cons v rest ih =>
      have hstop := setRevisionsLoop_stop hlen (by omega) hmut
      unfold setRevisionsLoop
      rw [List.length_cons] at hfuel hlen
      by_cases hall : ∀ x ∈ v :: rest, x = prev
      · exact ⟨dirty, by rw [if_pos (hstop.mpr hall), settle, if_pos hall]⟩
      · rw [if_neg (mt hstop.mp hall), settle, if_neg hall]
        cases fuel with
        | zero => omega
        | succ fuel =>
            have hrest : ∀ j, i + 1 ≤ j → ∀ w,
                ((j, w) ∈ changes i prev (v :: rest) ↔ (j, w) ∈ changes (i + 1) v rest) := by
              intro j hj w
              rw [changes]
              split
              · rename_i hv
                rw [hv]
              · refine ⟨fun hm => ?_, List.mem_cons_of_mem _⟩
                rcases List.mem_cons.mp hm with heq | hm
                · have := (Prod.mk.inj heq).1
                  omega
                · exact hm
            rw [replay_eq (by omega) (hval i · (Nat.le_refl i)) (hdel i (Nat.le_refl i))]
            obtain ⟨dirty', hloop⟩ := ih (show rest.length ≤ fuel by omega)
              (show i + 1 + rest.length ≤ 31 by omega)
              (fun j x hj => (hval j x (by omega)).trans (hrest j hj _))
              (fun j hj => (hdel j (by omega)).trans (hrest j hj _))
              (fun j hj => (hmut j (by omega)).trans (exists_congr fun w => hrest j hj w))
              (if v ≠ prev then dirty ||| bit i else dirty)
            exact ⟨dirty', by simp only [hloop, Option.map_some]⟩

/-! ## Reading the settled array -/

theorem settle_eq_nil {prev : Option V} {l : List (Option V)} :
    settle prev l = [] ↔ ∀ x ∈ l, x = prev := by
  cases l with
  | nil => simp [settle]
  | cons v rest =>
      rw [settle]
      split
      · rename_i h
        exact iff_of_true rfl h
      · rename_i h
        exact iff_of_false (by simp) h

omit [DecidableEq V] in
theorem readFrom_of_lt (prev : Option V) {l : List (Option V)} {i : Nat} (h : i < l.length) :
    readFrom prev l i = l[i] := by
  induction l generalizing prev i with
  | nil => cases h
  | cons v rest ih =>
      cases i with
      | zero => rfl
      | succ i => exact ih v (by simpa using h)

omit [DecidableEq V] in
theorem readFrom_of_ge (prev : Option V) {l : List (Option V)} (hl : l ≠ []) {i : Nat}
    (h : l.length - 1 ≤ i) : readFrom prev l i = l.getLast hl := by
  induction l generalizing prev i with
  | nil => exact absurd rfl hl
  | cons v rest ih =>
      cases rest with
      | nil => cases i <;> rfl
      | cons w rest =>
          cases i with
          | zero => simp at h
          | succ i =>
              rw [List.getLast_cons (by simp)]
              exact ih v (by simp) (by simpa using h)

omit [DecidableEq V] in
theorem readFrom_of_all {prev : Option V} {l : List (Option V)} (h : ∀ x ∈ l, x = prev)
    (i : Nat) : readFrom prev l i = prev := by
  induction l generalizing i with
  | nil => rfl
  | cons v rest ih =>
      obtain ⟨rfl, hrest⟩ := List.forall_mem_cons.mp h
      cases i with
      | zero => rfl
      | succ i => exact ih hrest i

theorem readFrom_settle (prev : Option V) (l : List (Option V)) (i : Nat) :
    readFrom prev (settle prev l) i = readFrom prev l i := by
  induction l generalizing prev i with
  | nil => rfl
  | cons v rest ih =>
      rw [settle]
      split
      · rename_i h
        rw [readFrom_of_all h]
        rfl
      · cases i with
        | zero => rfl
        | succ i => exact ih v i

/-- An array that does not change after index `n` settles within it. -/
theorem length_settle_of_const {prev : Option V} {l : List (Option V)} {n : Nat}
    (h : ∀ i, n ≤ i → readFrom prev l i = readFrom prev l n) :
    (settle prev l).length ≤ n + 1 := by
  induction l generalizing prev n with
  | nil => simp [settle]
  | cons v rest ih =>
      rw [settle]
      split
      · simp
      · rw [List.length_cons]
        cases n with
        | zero =>
            have hrest : ∀ x ∈ rest, x = v := by
              intro x hx
              obtain ⟨i, hi, rfl⟩ := List.mem_iff_getElem.mp hx
              rw [← readFrom_of_lt v hi]
              exact h (i + 1) (Nat.zero_le _)
            rw [settle_eq_nil.mpr hrest]
            simp
        | succ n =>
            exact Nat.succ_le_succ (ih fun i hi => h (i + 1) (by omega))

omit [DecidableEq V] in
theorem hist_eq_readFrom (s : Slots V) (prev : Option V) (i : Nat) :
    s.hist i = readFrom prev s.toList i := by
  rcases Nat.lt_or_ge i s.toList.length with hi | hi
  · rw [readFrom_of_lt prev hi, Slots.hist_of_le (by rw [s.length_eq] at hi; omega)]
  · rw [readFrom_of_ge prev s.ne_nil (by omega), Slots.hist_of_ge (by rw [s.length_eq] at hi; omega)]
    rfl

/-- The array `setRevisions` builds from the object of `s`. -/
def settleSlots (s : Slots V) : Option (Slots V) :=
  if h : settle none s.toList = [] then none else some ⟨settle none s.toList, h⟩

theorem settleSlots_eq_none {s : Slots V} : settleSlots s = none ↔ s.Vacant := by
  unfold settleSlots
  split
  · rename_i h
    exact iff_of_true rfl (settle_eq_nil.mp h)
  · rename_i h
    exact iff_of_false (by simp) fun hv => h (settle_eq_nil.mpr hv)

theorem hist_settleSlots {s t : Slots V} (h : settleSlots s = some t) (i : Nat) :
    t.hist i = s.hist i := by
  unfold settleSlots at h
  split at h
  · cases h
  · cases h
    rw [hist_eq_readFrom _ none, hist_eq_readFrom _ none, readFrom_settle]

theorem newest_settleSlots_of_const {s t : Slots V} (h : settleSlots s = some t) {n : Nat}
    (hc : ∀ i, n ≤ i → s.hist i = s.hist n) : t.newest ≤ n := by
  unfold settleSlots at h
  split at h
  · cases h
  · cases h
    have hlen : (settle none s.toList).length ≤ n + 1 := length_settle_of_const fun i hi => by
      rw [← hist_eq_readFrom, ← hist_eq_readFrom, hc i hi]
    exact Nat.sub_le_of_le_add hlen

/-! ## The resumed map -/

section Resume

variable [DecidableEq K]

/-- `deserialize` for one path: `setRevisions` unless `getRevisions` gave `null`. -/
def resumeKey (m acc : VersionedMap K V) (key : K) : Option (VersionedMap K V) :=
  match m.getRevisions key with
  | none => some acc
  | some revisionsObj => acc.setRevisions key revisionsObj

/-- The map `deserialize` rebuilds from the paths `keys` of the device data. -/
def resume (m : VersionedMap K V) (keys : List K) : Option (VersionedMap K V) :=
  keys.foldlM (resumeKey m) empty

theorem setRevisions_eq {s : Slots V} {r : Revisions V} (hlen : s.newest < 31)
    (hr : revisionsOf s = some r) (acc : VersionedMap K V) (key : K) :
    ∃ t dirty, settleSlots s = some t ∧
      acc.setRevisions key r = some { acc with dirty := dirty, map := acc.map.set key t } := by
  have hrec := revisionsOf_records hlen hr
  have hnv : ¬ s.Vacant := fun h => by rw [revisionsOf_eq_none.mpr h] at hr; cases hr
  have hne : settle none s.toList ≠ [] := fun h => hnv (settle_eq_nil.mp h)
  have hlength := s.length_eq
  obtain ⟨dirty, hloop⟩ := setRevisionsLoop_eq (show s.toList.length ≤ 32 by omega)
    (show 0 + s.toList.length ≤ 31 by omega) (fun j x _ => hrec.value j x)
    (fun j _ => hrec.delete j) (fun j _ => hrec.mutation j) acc.dirty
  refine ⟨⟨settle none s.toList, hne⟩, dirty, by rw [settleSlots, dif_neg hne], ?_⟩
  simp only [setRevisions, hloop, Option.map_some, dif_neg hne]

/-- The array the rebuilt map holds for a key. -/
def resumed (m : VersionedMap K V) (key : K) : Option (Slots V) :=
  (m.map.get? key).bind settleSlots

theorem resumeKey_spec {m : VersionedMap K V} (hm : ∀ k, m.newest k < 31)
    (acc : VersionedMap K V) (key : K) :
    ∃ acc', resumeKey m acc key = some acc' ∧
      acc'.sizeDiff = acc.sizeDiff ∧ acc'.revision = acc.revision ∧
      ∀ k, acc'.map.get? k = if k = key then (m.resumed k).or (acc.map.get? k)
        else acc.map.get? k := by
  cases hs : m.map.get? key with
  | none =>
      refine ⟨acc, by simp only [resumeKey, getRevisions, hs, Option.bind_none], rfl, rfl, ?_⟩
      intro k
      split
      · rename_i hk
        rw [resumed, hk, hs]
        rfl
      · rfl
  | some s =>
      cases hr : revisionsOf s with
      | none =>
          refine ⟨acc, by simp only [resumeKey, getRevisions, hs, Option.bind_some, hr],
            rfl, rfl, ?_⟩
          intro k
          split
          · rename_i hk
            rw [resumed, hk, hs, Option.bind_some,
              settleSlots_eq_none.mpr (revisionsOf_eq_none.mp hr)]
            rfl
          · rfl
      | some r =>
          have hlen : s.newest < 31 := by rw [← newest_of_slots hs]; exact hm key
          obtain ⟨t, dirty, ht, hset⟩ := setRevisions_eq hlen hr acc key
          refine ⟨{ acc with dirty := dirty, map := acc.map.set key t }, ?_, rfl, rfl, ?_⟩
          · simp only [resumeKey, getRevisions, hs, Option.bind_some, hr, hset]
          intro k
          rw [InsMap.get?_set]
          split
          · rename_i hk
            rw [resumed, hk, hs, Option.bind_some, ht]
            rfl
          · rfl

theorem foldlM_resumeKey {m : VersionedMap K V} (hm : ∀ k, m.newest k < 31) (keys : List K)
    (acc : VersionedMap K V) :
    ∃ m', keys.foldlM (resumeKey m) acc = some m' ∧
      m'.sizeDiff = acc.sizeDiff ∧ m'.revision = acc.revision ∧
      ∀ k, m'.map.get? k = if k ∈ keys then (m.resumed k).or (acc.map.get? k)
        else acc.map.get? k := by
  induction keys generalizing acc with
  | nil => exact ⟨acc, rfl, rfl, rfl, fun k => by simp⟩
  | cons key rest ih =>
      obtain ⟨acc', hacc, hsize, hrev, hget⟩ := resumeKey_spec hm acc key
      obtain ⟨m', hm', hsize', hrev', hget'⟩ := ih acc'
      refine ⟨m', ?_, hsize'.trans hsize, hrev'.trans hrev, fun k => ?_⟩
      · rw [List.foldlM_cons, hacc]
        exact hm'
      · rw [hget', hget]
        by_cases hk : k = key
        · subst hk
          cases m.resumed k <;> simp
        · simp [hk]

/-- Resuming succeeds; the rebuilt map holds every key's settled array and
nothing else, at revision 0 and as long as a fresh map. -/
theorem resume_spec {m : VersionedMap K V} (hm : ∀ k, m.newest k < 31) {keys : List K}
    (hkeys : ∀ k ∈ m.map.keys, k ∈ keys) :
    ∃ m', resume m keys = some m' ∧ m'.sizeDiff = [some 0] ∧
      ∀ k, m'.map.get? k = m.resumed k := by
  obtain ⟨m', hm', hsize, -, hget⟩ := foldlM_resumeKey hm keys empty
  refine ⟨m', hm', hsize, fun k => ?_⟩
  rw [hget k]
  by_cases hk : k ∈ keys
  · rw [if_pos hk]
    exact Option.or_none
  · rw [if_neg hk, resumed, InsMap.get?_eq_none.mpr (mt (hkeys k) hk)]
    rfl

end Resume

end VersionedMap

end GenieAcs
