import GenieAcs.VersionedMap

/-!
# What collapsing keeps

`collapse` returns early when the size differences end at the revision or
before it, so a slot past their end is never cut. Every write reaches as far
into the size differences as into the array of its key, but one: `set` of a
key that has a value leaves the size differences as they are.
`collapse_visible_iff` says that these writes decide: a run in which each of
them is a revision that the size differences reach, and no other, has its
history kept by every `collapse`.
-/

namespace GenieAcs

namespace VersionedMap

variable {K V : Type*} [DecidableEq K]

/-! ## The operations of a run -/

inductive Change (K V : Type*)
  | setRevision (rev : Nat)
  | set (key : K) (value : V) (rev : Nat)
  | delete (key : K) (rev : Nat)
  | collapse (rev : Nat)

def Change.rev : Change K V → Nat
  | .setRevision rev | .set _ _ rev | .delete _ rev | .collapse rev => rev

/-- The map after an operation; a `set` that returns `null` leaves it as it was. -/
def apply [DecidableEq V] (m : VersionedMap K V) : Change K V → VersionedMap K V
  | .setRevision rev => m.setRevision rev
  | .set key value rev => (m.set key value rev).getD m
  | .delete key rev => (m.delete key rev).2
  | .collapse rev => m.collapse rev

def applyAll [DecidableEq V] (m : VersionedMap K V) (changes : List (Change K V)) :
    VersionedMap K V := changes.foldl apply m

/-- `n` is `m` with the revisions from `rev` on made one. -/
structure Collapsed (rev : Nat) (m n : VersionedMap K V) : Prop where
  get : ∀ k i, n.get k i = if i < rev then m.get k i else m.latest k
  has : ∀ k i, n.has k i = if i < rev then m.has k i else (m.latest k).isSome
  dirty : n.dirty.sshiftRight rev ≠ 0#32 ↔ m.dirty.sshiftRight rev ≠ 0#32
  below : ∀ i < rev, n.dirty.getLsbD i = m.dirty.getLsbD i

/-- What `collapse` is for. -/
def Collapsible [DecidableEq V] (m : VersionedMap K V) : Prop :=
  ∀ rev < 31, Collapsed rev m (m.collapse rev)

/-! ## The dirty mask -/

/-- The mask that `collapse` leaves. -/
def collapseMask (dirty : BitVec 32) (rev : Nat) : BitVec 32 :=
  let d := dirty.sshiftRight rev
  dirty ^^^ (d <<< rev) ||| (if d = 0#32 then 0#32 else bit rev)

theorem collapseMask_below {rev i : Nat} (dirty : BitVec 32) (hrev : rev < 31) (hi : i < rev) :
    (collapseMask dirty rev).getLsbD i = dirty.getLsbD i := by
  have hbit : (if dirty.sshiftRight rev = 0#32 then 0#32 else bit rev).getLsbD i = false := by
    split_ifs
    · exact BitVec.getLsbD_zero
    · rw [bit_getLsbD (by omega), decide_eq_false (by omega)]
  rw [collapseMask, BitVec.getLsbD_or, BitVec.getLsbD_xor, hbit, BitVec.getLsbD_shiftLeft]
  simp [hi]

theorem collapseMask_ne_zero {rev : Nat} (dirty : BitVec 32) (hrev : rev < 31) :
    (collapseMask dirty rev).sshiftRight rev ≠ 0#32 ↔ dirty.sshiftRight rev ≠ 0#32 := by
  by_cases hd : dirty.sshiftRight rev = 0#32
  · simp [collapseMask, hd]
  · refine iff_of_true ?_ hd
    intro hzero
    have hbit : ((collapseMask dirty rev).sshiftRight rev).getLsbD 0 = true := by
      rw [BitVec.getLsbD_sshiftRight]
      simp [collapseMask, hd, bit_getLsbD (show rev < 32 by omega), show rev < 32 by omega]
    rw [hzero, BitVec.getLsbD_zero] at hbit
    cases hbit

/-! ## One `collapse` -/

/-- Past the end of the size differences no key changes. -/
def Settled (m : VersionedMap K V) : Prop :=
  ∀ k i, m.sizeDiff.length ≤ i → m.get k i = m.latest k

theorem settled_collapsible [DecidableEq V] {m : VersionedMap K V} (h : Settled m) :
    Collapsible m := by
  intro rev hrev
  by_cases hlen : m.sizeDiff.length ≤ rev
  · rw [collapse_of_le hlen]
    have hget : ∀ k i, m.get k i = if i < rev then m.get k i else m.latest k := by
      intro k i
      by_cases hi : i < rev
      · rw [if_pos hi]
      · rw [if_neg hi, h k i (by omega)]
    refine ⟨hget, fun k i => ?_, Iff.rfl, fun _ _ => rfl⟩
    rw [has_eq, hget]
    split_ifs <;> rfl
  · have hcuts : Cuts rev m (m.collapse rev) := get?_collapse (Nat.lt_of_not_le hlen)
    have hdirty : (m.collapse rev).dirty = collapseMask m.dirty rev := by
      rw [collapse, if_neg hlen, collapseMask, Nat.mod_eq_of_lt (show rev < 32 by omega)]
    refine ⟨hcuts.get, fun k i => ?_, ?_, fun i hi => ?_⟩
    · rw [has_eq, hcuts.get, has_eq]
      split_ifs <;> rfl
    · rw [hdirty]
      exact collapseMask_ne_zero m.dirty hrev
    · rw [hdirty]
      exact collapseMask_below m.dirty hrev hi

/-! ## One operation -/

/-- A write that replaces a value is at a revision that the size differences
end at or have. -/
def Covered (m : VersionedMap K V) : Change K V → Prop
  | .set key value rev =>
      m.newest key ≤ rev → m.latest key ≠ none → m.latest key ≠ some value →
        rev ≤ m.sizeDiff.length
  | _ => True

theorem latest_written {m n : VersionedMap K V} {key : K} {rev : Nat} {v : Option V}
    (hnew : m.newest key ≤ rev) (hn : n.map = m.map.set key (m.written key rev v)) (k : K) :
    n.latest k = if k = key then v else m.latest k := by
  by_cases hk : k = key
  · rw [if_pos hk, ← get_of_ge (Nat.le_refl _), newest_of_map_set hn, if_pos hk,
      get_of_map_set hn, if_pos hk, newest_written hnew, hist_written hnew,
      if_neg (Nat.lt_irrefl rev)]
  · rw [if_neg hk, ← get_of_ge (Nat.le_refl _), newest_of_map_set hn, if_neg hk,
      get_of_map_set hn, if_neg hk, get_of_ge (Nat.le_refl _)]

theorem Cuts.latest [DecidableEq V] {rev : Nat} {m n : VersionedMap K V} (h : Cuts rev m n)
    (k : K) : n.latest k = m.latest k := by
  rw [← get_of_ge (Nat.le_max_left (n.newest k) rev), h.get,
    if_neg (Nat.not_lt.mpr (Nat.le_max_right ..))]

/-- A write keeps the map settled if it reaches the end of the size
differences, or writes the value that is there. -/
theorem Settled.write {m n : VersionedMap K V} (h : Settled m) {key : K} {rev : Nat}
    {v : Option V} (hnew : m.newest key ≤ rev)
    (hn : n.map = m.map.set key (m.written key rev v))
    (hlen : m.sizeDiff.length ≤ n.sizeDiff.length)
    (hv : rev ≤ n.sizeDiff.length ∨ m.latest key = v) : Settled n := by
  intro k i hi
  rw [get_of_map_set hn, latest_written hnew hn]
  by_cases hk : k = key
  · subst hk
    rw [if_pos rfl, if_pos rfl, hist_written hnew]
    split_ifs with hlt
    · rw [h k i (by omega)]
      exact hv.resolve_left (by omega)
    · rfl
  · rw [if_neg hk, if_neg hk, h k i (by omega)]

/-- A `set` of a key without a value reaches its revision. -/
theorem length_set {m m' : VersionedMap K V} {key : K} {value : V} {rev : Nat}
    (hset : m.set key value rev = some m') (hnew : m.newest key ≤ rev)
    (hl : m.latest key = none) : rev ≤ m'.sizeDiff.length := by
  cases hs : m.map.get? key with
  | none =>
      rw [set_of_absent hs] at hset
      cases hset
      rw [length_decSizeDiff]
      exact Nat.le_max_right _ _
  | some s =>
      rw [newest_of_slots hs] at hnew
      rw [latest_of_slots hs] at hl
      rw [set_of_slots hs hnew, hl] at hset
      cases hset
      simp only [Option.isNone_none, if_true, length_addSizeDiff]
      omega

theorem length_delete {m m' : VersionedMap K V} {key : K} {rev : Nat}
    (hdelete : m.delete key rev = (some true, m')) (hnew : m.newest key ≤ rev) :
    rev ≤ m'.sizeDiff.length := by
  cases hs : m.map.get? key with
  | none =>
      rw [delete, hs] at hdelete
      cases hdelete
  | some s =>
      rw [newest_of_slots hs] at hnew
      by_cases hl : s.last = none
      · rw [delete, hs] at hdelete
        simp [Nat.not_lt.mpr hnew, hl] at hdelete
      · rw [delete_of_slots hs hnew hl] at hdelete
        cases hdelete
        rw [length_addSizeDiff]
        omega

variable [DecidableEq V]

/-- The step lemma. -/
theorem Settled.apply {m : VersionedMap K V} (h : Settled m) {c : Change K V}
    (hc : Covered m c) : Settled (m.apply c) := by
  cases c with
  | setRevision rev =>
      intro k i hi
      rw [VersionedMap.apply, length_setRevision] at hi
      exact h k i (by omega)
  | set key value rev =>
      rcases Nat.lt_or_ge rev (m.newest key) with hlt | hnew
      · rw [VersionedMap.apply, set_refused hlt]
        exact h
      · obtain ⟨n, hset, hn, -, hlo, -⟩ := set_eq hnew value
        rw [VersionedMap.apply, hset]
        refine h.write hnew hn hlo ?_
        by_cases hl : m.latest key = none
        · exact Or.inl (length_set hset hnew hl)
        · by_cases hv : m.latest key = some value
          · exact Or.inr hv
          · exact Or.inl (Nat.le_trans (hc hnew hl hv) hlo)
  | delete key rev =>
      rcases Nat.lt_or_ge rev (m.newest key) with hlt | hnew
      · rw [VersionedMap.apply, delete_refused hlt]
        exact h
      · rcases delete_eq hnew with ⟨-, hdelete⟩ | ⟨-, n, hdelete, hn, -, hlo, -⟩
        · rw [VersionedMap.apply, hdelete]
          exact h
        · rw [VersionedMap.apply, hdelete]
          exact h.write hnew hn hlo (Or.inl (length_delete hdelete hnew))
  | collapse rev =>
      rw [VersionedMap.apply]
      by_cases hlen : m.sizeDiff.length ≤ rev
      · rw [collapse_of_le hlen]
        exact h
      · have hcuts : Cuts rev m (m.collapse rev) := get?_collapse (Nat.lt_of_not_le hlen)
        intro k i hi
        rw [length_collapse (Nat.lt_of_not_le hlen)] at hi
        rw [hcuts.get, if_neg (by omega), hcuts.latest]

/-- A `set` that is not covered cannot be collapsed at the end of the size
differences. -/
theorem Settled.uncovered {m : VersionedMap K V} (h : Settled m) {c : Change K V}
    (hrev : c.rev < 31) (hc : ¬ Covered m c) : ¬ Collapsible (m.apply c) := by
  cases c with
  | set key value rev =>
      simp only [Covered, Classical.not_imp, Nat.not_le] at hc
      obtain ⟨hnew, hl, hv, hlt⟩ := hc
      obtain ⟨s, hs⟩ : ∃ s, m.map.get? key = some s := by
        refine Option.ne_none_iff_exists'.mp fun hnone => hl (latest_of_absent hnone)
      have hlast : s.last.isNone = false := by
        rw [latest_of_slots hs] at hl
        exact Option.isNone_eq_false_iff.mpr (Option.isSome_iff_ne_none.mpr hl)
      obtain ⟨n, hset, hn, -⟩ := set_eq hnew value
      have hlen : n.sizeDiff.length = m.sizeDiff.length := by
        rw [newest_of_slots hs] at hnew
        have hset' := hset
        rw [set_of_slots hs hnew, hlast] at hset'
        cases hset'
        rfl
      rw [VersionedMap.apply, hset]
      intro hcollapsible
      have hrev' : m.sizeDiff.length < 31 := Nat.lt_trans hlt hrev
      have hget := (hcollapsible m.sizeDiff.length hrev').get key m.sizeDiff.length
      -- the map returned early
      rw [Option.getD_some, collapse_of_le (Nat.le_of_eq hlen), if_neg (Nat.lt_irrefl _),
        get_of_map_set hn, if_pos rfl, hist_written hnew, if_pos hlt, latest_written hnew hn,
        if_pos rfl, h key _ (Nat.le_refl _)] at hget
      exact hv hget
  | setRevision rev => exact absurd trivial hc
  | delete key rev => exact absurd trivial hc
  | collapse rev => exact absurd trivial hc

/-! ## Whole runs -/

/-- The run lemma, from a settled map. -/
theorem Settled.collapsible_iff (changes : List (Change K V)) :
    ∀ m : VersionedMap K V, Settled m → (∀ c ∈ changes, c.rev < 31) →
      ((∀ before, before <+: changes → Collapsible (m.applyAll before))
        ↔ ∀ before c, before ++ [c] <+: changes → Covered (m.applyAll before) c) := by
  induction changes with
  | nil =>
      intro m h _
      refine iff_of_true (fun before hbefore => ?_) fun before c hbefore => ?_
      · rw [List.prefix_nil.mp hbefore]
        exact settled_collapsible h
      · exact absurd (List.prefix_nil.mp hbefore) (by simp)
  | cons c changes ih =>
      intro m h hrev
      obtain ⟨hc, hrest⟩ := List.forall_mem_cons.mp hrev
      by_cases hcovered : Covered m c
      · have hih := ih (m.apply c) (h.apply hcovered) hrest
        constructor
        · intro hall before c' hbefore
          cases before with
          | nil =>
              obtain ⟨rfl, -⟩ := List.cons_prefix_cons.mp hbefore
              exact hcovered
          | cons c'' before =>
              obtain ⟨rfl, htail⟩ := List.cons_prefix_cons.mp hbefore
              refine hih.mp (fun before' hbefore' => ?_) before c' htail
              exact hall (c'' :: before') (List.cons_prefix_cons.mpr ⟨rfl, hbefore'⟩)
        · intro hall before hbefore
          cases before with
          | nil => exact settled_collapsible h
          | cons c' before =>
              obtain ⟨rfl, htail⟩ := List.cons_prefix_cons.mp hbefore
              refine hih.mpr (fun before' c'' hbefore' => ?_) before htail
              exact hall (c' :: before') c'' (List.cons_prefix_cons.mpr ⟨rfl, hbefore'⟩)
      · refine iff_of_false (fun hall => ?_) fun hall => ?_
        · refine h.uncovered hc hcovered (hall [c] ?_)
          exact List.cons_prefix_cons.mpr ⟨rfl, List.nil_prefix⟩
        · exact hcovered (hall [] c (List.cons_prefix_cons.mpr ⟨rfl, List.nil_prefix⟩))

/-- Every map of a run can be collapsed at every revision exactly if each
`set` of the run that replaces a value is covered. -/
theorem collapse_visible_iff (changes : List (Change K V)) (hrev : ∀ c ∈ changes, c.rev < 31) :
    (∀ before, before <+: changes → Collapsible (empty.applyAll before))
      ↔ ∀ before c, before ++ [c] <+: changes → Covered (empty.applyAll before) c :=
  Settled.collapsible_iff changes empty (fun k i _ => by rw [get_of_ge (Nat.zero_le i)]) hrev

/-- A key written again after a collapse that left the revision at 2. -/
def stranded : List (Change Nat Nat) :=
  [.setRevision 2, .set 7 1 0, .collapse 0, .set 7 2 2]

theorem stranded_not_visible :
    (∀ c ∈ stranded, c.rev < 31)
      ∧ ((empty.applyAll stranded).collapse 1).get 7 1 = some 1
      ∧ (empty.applyAll stranded).latest 7 = some 2
      ∧ ¬ Collapsible (empty.applyAll stranded) := by
  refine ⟨by decide, rfl, rfl, fun hcollapsible => ?_⟩
  have hget := (hcollapsible 1 (by decide)).get 7 1
  cases hget

theorem stranded_visible_iff :
    (∀ before, before <+: stranded → Collapsible (empty.applyAll before))
      ↔ ∀ before c, before ++ [c] <+: stranded → Covered (empty.applyAll before) c :=
  collapse_visible_iff stranded (by decide)

end VersionedMap

end GenieAcs
