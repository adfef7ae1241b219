import GenieAcs.Lib.Transition
import GenieAcs.VersionedMapResume

/-!
# Using a versioned map after the resume

A map and the map rebuilt from it, under the operations the session issues.
The histories agree from the start; the rebuilt map may be shorter, as the
size differences are not stored, and its arrays may be shorter, as repeated
slots are not rebuilt. `Twin` is what every operation keeps of this, given
for `collapse` that the shorter map does not take the early return while
one of its keys has a slot to cut.

`resume_transparent_iff` says exactly when the two maps cannot be told
apart: the shorter map takes that early return on the first `collapse(1)`.
-/

namespace GenieAcs

namespace VersionedMap

variable {K V : Type*} [DecidableEq K]

/-! ## The operations after the resume -/

/-- The operations of the session on a map. `rev = none` is the default
argument `this._revision`; writes use the default. -/
inductive Op (K V : Type*)
  | setRevision (rev : Nat)
  | get (key : K) (rev : Option Nat)
  | has (key : K) (rev : Option Nat)
  | set (key : K) (value : V)
  | delete (key : K)
  | diff
  | collapse (rev : Nat)

/-- What an operation returns; `refused` is a `set` that returns `null`. -/
inductive Obs (K V : Type*)
  | void
  | value (v : Option V)
  | bool (b : Bool)
  | accepted
  | refused
  | deleted (b : Option Bool)
  | diff (entries : List (K × Option V × Option V))

/-- Results are equal; `diff` up to its order and to entries whose first and
last values are equal. -/
def Obs.Equiv : Obs K V → Obs K V → Prop
  | .diff l, .diff l' => ∀ k a b, a ≠ b → ((k, a, b) ∈ l ↔ (k, a, b) ∈ l')
  | o, o' => o = o'

/-- A map in use: whether a revision was set since it was built, and the map. -/
structure Client (K V : Type*) where
  armed : Bool
  map : VersionedMap K V

def step [DecidableEq V] (c : Client K V) : Op K V → Client K V × Obs K V
  | .setRevision rev => (⟨true, c.map.setRevision rev⟩, .void)
  | .get key rev => (c, .value (c.map.get key (rev.getD c.map.revision)))
  | .has key rev => (c, .bool (c.map.has key (rev.getD c.map.revision)))
  | .set key value =>
      match c.map.set key value c.map.revision with
      | none => (c, .refused)
      | some m => ({ c with map := m }, .accepted)
  | .delete key =>
      let r := c.map.delete key c.map.revision
      ({ c with map := r.2 }, .deleted r.1)
  | .diff => (c, .diff c.map.diff)
  | .collapse rev => ({ c with map := c.map.collapse rev }, .void)

/-- What the session can issue. It sets the revision before it writes or reads
at the default one, sets it again after a `collapse`, and never writes below
the newest revision of a key. -/
def Issuable (c : Client K V) : Op K V → Prop
  | .get _ rev | .has _ rev => rev = none → c.armed
  | .set key _ | .delete key => c.armed ∧ c.map.newest key ≤ c.map.revision ∧
      c.map.revision < c.map.sizeDiff.length
  | .setRevision _ | .diff | .collapse _ => True

/-- The two maps answer every issuable run alike. -/
def Transparent [DecidableEq V] (m m' : VersionedMap K V) : Prop :=
  ∀ ops, Transducer.Admissible Issuable step ⟨false, m⟩ ops →
    List.Forall₂ Obs.Equiv (Transducer.outputs step ⟨false, m⟩ ops)
      (Transducer.outputs step ⟨false, m'⟩ ops)


/-! ## The relation every operation keeps -/

/-- `m'` answers like `m`: same histories, arrays and size differences no
longer than those of `m`. -/
structure Twin (m m' : VersionedMap K V) : Prop where
  get : ∀ k i, m'.get k i = m.get k i
  newest : ∀ k, m'.newest k ≤ m.newest k
  length : m'.sizeDiff.length ≤ m.sizeDiff.length
  pos : 0 < m'.sizeDiff.length
  vacant : ∀ k s, m'.map.get? k = some s → s.Vacant →
    ∃ s0, m.map.get? k = some s0 ∧ s0.newest = s.newest

theorem Twin.latest {m m' : VersionedMap K V} (h : Twin m m') (k : K) :
    m'.latest k = m.latest k := by
  rw [← get_of_ge (h.newest k), h.get, get_of_ge (Nat.le_refl _)]

theorem Twin.setRevision {m m' : VersionedMap K V} (h : Twin m m') (rev : Nat) :
    Twin (m.setRevision rev) (m'.setRevision rev) where
  get := h.get
  newest := h.newest
  length := by
    have := h.length
    rw [length_setRevision, length_setRevision]
    omega
  pos := by rw [length_setRevision]; omega
  vacant := h.vacant

/-- A write to both maps at a revision both have room for. -/
theorem Twin.write {m m' n n' : VersionedMap K V} (h : Twin m m') {key : K} {rev : Nat}
    {v : Option V} (hnew : m.newest key ≤ rev)
    (hn : n.map = m.map.set key (m.written key rev v))
    (hn' : n'.map = m'.map.set key (m'.written key rev v))
    (hlen : n.sizeDiff.length = m.sizeDiff.length)
    (hlen' : n'.sizeDiff.length = m'.sizeDiff.length) : Twin n n' where
  get k i := by
    rw [get_of_map_set hn, get_of_map_set hn', hist_written hnew,
      hist_written (Nat.le_trans (h.newest key) hnew), h.get, h.get]
  newest k := by
    rw [newest_of_map_set hn, newest_of_map_set hn', newest_written hnew,
      newest_written (Nat.le_trans (h.newest key) hnew)]
    split
    · exact Nat.le_refl _
    · exact h.newest k
  length := by rw [hlen, hlen']; exact h.length
  pos := by rw [hlen']; exact h.pos
  vacant k s hs hv := by
    rw [hn', InsMap.get?_set] at hs
    rw [hn, InsMap.get?_set]
    by_cases hk : k = key
    · rw [if_pos hk] at hs ⊢
      cases hs
      exact ⟨_, rfl, by rw [newest_written hnew, newest_written (Nat.le_trans (h.newest key) hnew)]⟩
    · rw [if_neg hk] at hs ⊢
      exact h.vacant k s hs hv

section Collapse

variable [DecidableEq V]

/-- Both maps hold their arrays cut at `rev`. -/
theorem Twin.cuts {m m' n n' : VersionedMap K V} (h : Twin m m') {rev : Nat}
    (hc : Cuts rev m n) (hc' : Cuts rev m' n')
    (hlen : n'.sizeDiff.length ≤ n.sizeDiff.length) (hpos : 0 < n'.sizeDiff.length) :
    Twin n n' := by
  have hget : ∀ k i, n'.get k i = n.get k i := by
    intro k i
    rw [hc.get, hc'.get, h.get, h.latest]
  have hvacant : ∀ k s, n'.map.get? k = some s → s.Vacant →
      ∃ s0, n.map.get? k = some s0 ∧ s0.newest = s.newest := by
    intro k s hs hv
    obtain ⟨t, ht, hcut⟩ := Option.bind_eq_some_iff.mp ((hc' k).symm.trans hs)
    obtain ⟨rfl, hle⟩ := Slots.cut_of_vacant hcut hv
    obtain ⟨s0, hs0, hnew⟩ := h.vacant k t ht hv
    refine ⟨s0, ?_, hnew⟩
    rw [hc k, hs0, Option.bind_some, Slots.cut, if_pos (by omega)]
  refine ⟨hget, fun k => ?_, hlen, hpos, hvacant⟩
  cases hs : n'.map.get? k with
  | none =>
      rw [newest_of_absent hs]
      exact Nat.zero_le _
  | some s =>
      by_cases hv : s.Vacant
      · obtain ⟨s0, hs0, hnew⟩ := hvacant k s hs hv
        rw [newest_of_slots hs, newest_of_slots hs0]
        exact Nat.le_of_eq hnew.symm
      · -- a value is left, so `m` keeps the key too
        have hstored : n.map.get? k ≠ none := by
          intro habs
          refine hv (Slots.vacant_iff.mpr fun i => ?_)
          rw [← get_of_slots hs, hget, get_of_absent habs]
        rw [hc.newest hstored, hc'.newest (by rw [hs]; exact Option.some_ne_none s)]
        have := h.newest k
        omega

/-- `collapse`, where the rebuilt map does not return early with a slot to cut. -/
theorem Twin.collapse {m m' : VersionedMap K V} (h : Twin m m') {rev : Nat}
    (hr : m.sizeDiff.length ≤ rev ∨ rev < m'.sizeDiff.length ∨ ∀ k, m'.newest k ≤ rev) :
    Twin (m.collapse rev) (m'.collapse rev) := by
  have hlen := h.length
  have hpos := h.pos
  by_cases hL : m.sizeDiff.length ≤ rev
  · rw [collapse_of_le hL, collapse_of_le (by omega)]
    exact h
  · have hcol : (m.collapse rev).sizeDiff.length = rev + 1 := length_collapse (by omega)
    by_cases hL' : rev < m'.sizeDiff.length
    · have hcol' := length_collapse hL'
      exact h.cuts (get?_collapse (by omega)) (get?_collapse hL') (by omega) (by omega)
    · have hshort : ∀ k, m'.newest k ≤ rev := by
        rcases hr with hr | hr | hr
        · exact absurd hr hL
        · exact absurd hr hL'
        · exact hr
      rw [collapse_of_le (Nat.not_lt.mp hL')]
      refine h.cuts (get?_collapse (by omega)) (fun k => ?_) (by omega) hpos
      cases hs : m'.map.get? k with
      | none => rfl
      | some s =>
          have := hshort k
          rw [newest_of_slots hs] at this
          rw [Option.bind_some, Slots.cut, if_pos this]

end Collapse

theorem mem_diff {m : VersionedMap K V} {k : K} {a b : Option V} (hab : a ≠ b) :
    (k, a, b) ∈ m.diff ↔ m.get k 0 = a ∧ m.latest k = b := by
  unfold diff
  rw [List.mem_filterMap]
  constructor
  · rintro ⟨⟨key, s⟩, hmem, heq⟩
    simp only at heq
    split at heq
    · cases heq
    · split at heq
      · cases heq
      · cases heq
        have hs := InsMap.get?_eq_some.mpr hmem
        exact ⟨get_of_slots hs 0, latest_of_slots hs⟩
  · rintro ⟨rfl, rfl⟩
    cases hs : m.map.get? k with
    | none =>
        rw [get_of_absent hs, latest_of_absent hs] at hab
        exact absurd rfl hab
    | some s =>
        rw [get_of_slots hs, latest_of_slots hs] at hab ⊢
        refine ⟨(k, s), InsMap.get?_eq_some.mp hs, ?_⟩
        have hn : s.newest ≠ 0 := fun h0 => hab (Slots.hist_of_ge (by omega))
        have hnone : ¬ ((s.hist 0).isNone && s.last.isNone) = true := by
          rw [Bool.and_eq_true, Option.isNone_iff_eq_none, Option.isNone_iff_eq_none]
          exact fun h => hab (h.1.trans h.2.symm)
        simp only [if_neg hn, if_neg hnone]

/-! ## The simulation -/

/-- Either no key of the rebuilt map has a slot that a `collapse` could cut and
the early return would keep, or the maps are equally long. -/
def Short (m m' : VersionedMap K V) : Prop :=
  (∀ k, m'.newest k ≤ max 1 (m'.sizeDiff.length - 1)) ∨
    m'.sizeDiff.length = m.sizeDiff.length

/-- The client of the rebuilt map follows the client of the map. -/
structure Alike (c c' : Client K V) : Prop where
  armed : c'.armed = c.armed
  twin : Twin c.map c'.map
  short : Short c.map c'.map
  revision : c.armed = true → c'.map.revision = c.map.revision ∧
    (c.map.revision < c.map.sizeDiff.length → c.map.revision < c'.map.sizeDiff.length)

theorem Alike.default {c c' : Client K V} (h : Alike c c') {rev : Option Nat}
    (hrev : rev = none → c.armed = true) :
    rev.getD c'.map.revision = rev.getD c.map.revision := by
  cases rev with
  | none => exact (h.revision (hrev rfl)).1
  | some r => rfl

/-- A write both maps accept. -/
theorem Alike.write {c c' : Client K V} (h : Alike c c') {n n' : VersionedMap K V} {key : K}
    {v : Option V} (harmed : c.armed = true) (hnew : c.map.newest key ≤ c.map.revision)
    (hroom : c.map.revision < c.map.sizeDiff.length)
    (hn : n.map = c.map.map.set key (c.map.written key c.map.revision v))
    (hn' : n'.map = c'.map.map.set key (c'.map.written key c.map.revision v))
    (hrev : n.revision = c.map.revision) (hrev' : n'.revision = c.map.revision)
    (hlen : n.sizeDiff.length = c.map.sizeDiff.length)
    (hlen' : n'.sizeDiff.length = c'.map.sizeDiff.length) :
    Alike { c with map := n } { c' with map := n' } where
  armed := h.armed
  twin := h.twin.write hnew hn hn' hlen hlen'
  short := by
    have hroom' := (h.revision harmed).2 hroom
    rcases h.short with hs | hs
    · refine Or.inl fun k => ?_
      simp only
      rw [newest_of_map_set hn', hlen']
      split
      · rw [newest_written (Nat.le_trans (h.twin.newest key) hnew)]
        omega
      · exact hs k
    · exact Or.inr (by simp only; omega)
  revision _ := by
    refine ⟨hrev'.trans hrev.symm, fun _ => ?_⟩
    have := (h.revision harmed).2 hroom
    simp only
    omega

theorem Alike.setRevision {c c' : Client K V} (h : Alike c c') (rev : Nat) :
    Alike ⟨true, c.map.setRevision rev⟩ ⟨true, c'.map.setRevision rev⟩ where
  armed := rfl
  twin := h.twin.setRevision rev
  short := by
    simp only [Short, newest_setRevision, length_setRevision]
    rcases h.short with hs | hs
    · refine Or.inl fun k => ?_
      have := hs k
      omega
    · exact Or.inr (by omega)
  revision _ := by
    refine ⟨rfl, fun _ => ?_⟩
    simp only [length_setRevision]
    exact Nat.lt_of_lt_of_le (Nat.lt_succ_self rev) (Nat.le_max_right _ _)

theorem Alike.collapse [DecidableEq V] {c c' : Client K V} (h : Alike c c') (rev : Nat) :
    Alike { c with map := c.map.collapse rev } { c' with map := c'.map.collapse rev } := by
  have hlen := h.twin.length
  have hpos := h.twin.pos
  by_cases hL : c.map.sizeDiff.length ≤ rev
  · rw [collapse_of_le hL, collapse_of_le (by omega)]
    exact h
  · have hcol := length_collapse (Nat.lt_of_not_le hL)
    have hshort : rev < c'.map.sizeDiff.length ∨ ∀ k, c'.map.newest k ≤ rev := by
      by_cases hL' : rev < c'.map.sizeDiff.length
      · exact Or.inl hL'
      · refine Or.inr fun k => ?_
        rcases h.short with hs | hs
        · have := hs k
          omega
        · omega
    refine ⟨h.armed, h.twin.collapse (Or.inr hshort), ?_, fun harmed => ?_⟩
    · by_cases hL' : rev < c'.map.sizeDiff.length
      · exact Or.inr ((length_collapse hL').trans hcol.symm)
      · rcases h.short with hs | hs
        · refine Or.inl fun k => ?_
          simp only [collapse_of_le (Nat.not_lt.mp hL')]
          exact hs k
        · omega
    · obtain ⟨hrev, hroom⟩ := h.revision harmed
      simp only [revision_collapse, hcol]
      refine ⟨hrev, fun hlt => ?_⟩
      by_cases hL' : rev < c'.map.sizeDiff.length
      · rw [length_collapse hL']
        exact hlt
      · rw [collapse_of_le (Nat.not_lt.mp hL')]
        exact hroom (by omega)

theorem alike_step [DecidableEq V] (c c' : Client K V) (op : Op K V) (h : Alike c c')
    (hop : Issuable c op) :
    Obs.Equiv (step c op).2 (step c' op).2 ∧ Alike (step c op).1 (step c' op).1 := by
  cases op with
  | setRevision rev => exact ⟨rfl, h.setRevision rev⟩
  | get key rev =>
      refine ⟨?_, h⟩
      simp only [step, h.default hop, h.twin.get]
      rfl
  | has key rev =>
      refine ⟨?_, h⟩
      simp only [step, h.default hop, has_eq, h.twin.get]
      rfl
  | set key value =>
      obtain ⟨harmed, hnew, hroom⟩ := hop
      obtain ⟨hrev, hroom'⟩ := h.revision harmed
      obtain ⟨n, hset, hn, hnrev, hlo, hhi⟩ := set_eq hnew value
      obtain ⟨n', hset', hn', hnrev', hlo', hhi'⟩ :=
        set_eq (Nat.le_trans (h.twin.newest key) hnew) value
      have := hroom' hroom
      simp only [step, hrev, hset, hset']
      exact ⟨rfl, h.write harmed hnew hroom hn hn' hnrev (hnrev'.trans hrev) (by omega)
        (by omega)⟩
  | delete key =>
      obtain ⟨harmed, hnew, hroom⟩ := hop
      obtain ⟨hrev, hroom'⟩ := h.revision harmed
      have := hroom' hroom
      have hlatest := h.twin.latest key
      rcases delete_eq hnew with ⟨hl, hdel⟩ | ⟨hl, n, hdel, hn, hnrev, hlo, hhi⟩ <;>
        rcases delete_eq (Nat.le_trans (h.twin.newest key) hnew) with
          ⟨hl', hdel'⟩ | ⟨hl', n', hdel', hn', hnrev', hlo', hhi'⟩
      · simp only [step, hrev, hdel, hdel']
        exact ⟨rfl, h⟩
      · exact absurd (hlatest.trans hl) hl'
      · exact absurd (hlatest.symm.trans hl') hl
      · simp only [step, hrev, hdel, hdel']
        exact ⟨rfl, h.write harmed hnew hroom hn hn' hnrev (hnrev'.trans hrev) (by omega)
          (by omega)⟩
  | diff =>
      refine ⟨fun k a b hab => ?_, h⟩
      rw [mem_diff hab, mem_diff hab, h.twin.get, h.twin.latest]
  | collapse rev => exact ⟨rfl, h.collapse rev⟩

/-! ## The maps the session builds -/

/-- One operation on a map, at a revision below 31. -/
inductive Mutates [DecidableEq V] : VersionedMap K V → VersionedMap K V → Prop
  | setRevision (m : VersionedMap K V) {rev : Nat} : rev < 31 → Mutates m (m.setRevision rev)
  | set {m m' : VersionedMap K V} {key : K} {value : V} {rev : Nat} :
      rev < 31 → m.set key value rev = some m' → Mutates m m'
  | delete (m : VersionedMap K V) (key : K) {rev : Nat} :
      rev < 31 → Mutates m (m.delete key rev).2
  | collapse (m : VersionedMap K V) {rev : Nat} : rev < 31 → Mutates m (m.collapse rev)

/-- What a reachable map satisfies: every array fits the masks, and the size
differences are never empty. -/
structure Bounded (m : VersionedMap K V) : Prop where
  newest : ∀ k, m.newest k < 31
  pos : 0 < m.sizeDiff.length

theorem Bounded.of_write {m m' : VersionedMap K V} (h : Bounded m) {key : K} {rev : Nat}
    {v : Option V} (hrev : rev < 31) (hnew : m.newest key ≤ rev)
    (hm' : m'.map = m.map.set key (m.written key rev v))
    (hlen : m.sizeDiff.length ≤ m'.sizeDiff.length) : Bounded m' where
  newest k := by
    rw [newest_of_map_set hm']
    split
    · rw [newest_written hnew]
      exact hrev
    · exact h.newest k
  pos := Nat.lt_of_lt_of_le h.pos hlen

theorem Bounded.step [DecidableEq V] (m m' : VersionedMap K V) (h : Bounded m)
    (hm : Mutates m m') : Bounded m' := by
  cases hm with
  | setRevision _ => exact ⟨h.newest, by rw [length_setRevision]; omega⟩
  | @set _ key value rev hrev hset =>
      rcases Nat.lt_or_ge rev (m.newest key) with hlt | hge
      · rw [set_refused hlt] at hset
        cases hset
      · obtain ⟨n, hset', hn, -, hlo, -⟩ := set_eq hge value
        cases hset.symm.trans hset'
        exact h.of_write hrev hge hn hlo
  | @delete key rev hrev =>
      rcases Nat.lt_or_ge rev (m.newest key) with hlt | hge
      · rw [delete_refused hlt]
        exact h
      · rcases delete_eq hge with ⟨-, hdel⟩ | ⟨-, n, hdel, hn, -, hlo, -⟩
        · rw [hdel]
          exact h
        · rw [hdel]
          exact h.of_write hrev hge hn hlo
  | @collapse rev hrev =>
      by_cases hL : m.sizeDiff.length ≤ rev
      · rw [collapse_of_le hL]
        exact h
      · refine ⟨fun k => ?_, by rw [length_collapse (by omega)]; omega⟩
        have := Cuts.newest_le (get?_collapse (Nat.lt_of_not_le hL)) k
        omega

theorem Bounded.of_reachable [DecidableEq V] {m : VersionedMap K V}
    (h : Reachable (· = empty) Mutates m) : Bounded m := by
  refine h.invariant ?_ Bounded.step
  rintro m rfl
  exact ⟨fun k => Nat.zero_lt_succ 30, Nat.one_pos⟩

/-! ## When the resume is transparent -/

section Transparent

variable [DecidableEq V]

theorem get_resumed {m m' : VersionedMap K V} (hm' : ∀ k, m'.map.get? k = m.resumed k)
    (k : K) (i : Nat) : m'.get k i = m.get k i := by
  have hk := hm' k
  unfold resumed at hk
  cases hs : m.map.get? k with
  | none => rw [hs, Option.bind_none] at hk; rw [get_of_absent hk, get_of_absent hs]
  | some s =>
      rw [hs, Option.bind_some] at hk
      rw [get_of_slots hs]
      cases ht : settleSlots s with
      | none => rw [ht] at hk; rw [get_of_absent hk, Slots.vacant_iff.mp (settleSlots_eq_none.mp ht)]
      | some t => rw [ht] at hk; rw [get_of_slots hk, hist_settleSlots ht]

theorem newest_resumed {m m' : VersionedMap K V} (hm' : ∀ k, m'.map.get? k = m.resumed k)
    {k : K} {n : Nat} (hn : ∀ i, n ≤ i → m.get k i = m.get k n) : m'.newest k ≤ n := by
  cases ht : m'.map.get? k with
  | none => rw [newest_of_absent ht]; exact Nat.zero_le _
  | some t =>
      obtain ⟨s, hs, hst⟩ := Option.bind_eq_some_iff.mp ((hm' k).symm.trans ht)
      rw [newest_of_slots ht]
      refine newest_settleSlots_of_const hst fun i hi => ?_
      rw [← get_of_slots hs, ← get_of_slots hs, hn i hi]

theorem twin_resumed {m m' : VersionedMap K V} (hm : Bounded m)
    (hm' : ∀ k, m'.map.get? k = m.resumed k) (hsize : m'.sizeDiff = [some 0]) : Twin m m' where
  get := get_resumed hm'
  newest k := newest_resumed hm' fun i hi => by rw [get_of_ge hi, get_of_ge (Nat.le_refl _)]
  length := by rw [hsize]; exact hm.pos
  pos := by rw [hsize]; exact Nat.one_pos
  vacant k t ht hv := by
    obtain ⟨s, hs, hst⟩ := Option.bind_eq_some_iff.mp ((hm' k).symm.trans ht)
    have : s.Vacant := Slots.vacant_iff.mpr fun i => by
      rw [← hist_settleSlots hst, Slots.vacant_iff.mp hv]
    rw [settleSlots_eq_none.mpr this] at hst
    cases hst

/-- A key written at revision 0 and again at revision 2. -/
def rewritten : VersionedMap Nat Nat :=
  { sizeDiff := [some 0, some 0, some 0]
    revision := 2
    map := ⟨[(7, ⟨[some 1, some 1, some 2], by simp⟩)], by simp⟩
    dirty := 5#32 }

theorem rewritten_reachable : Reachable (· = empty) Mutates rewritten := by
  have h0 : Reachable (· = empty) Mutates (empty : VersionedMap Nat Nat) := .init rfl
  have h1 := h0.step (.set (by decide) (show empty.set 7 1 0 = some _ from rfl))
  have h2 := h1.step (.setRevision _ (show 2 < 31 by decide))
  exact h2.step (.set (by decide) (show VersionedMap.set _ 7 2 2 = some rewritten from rfl))

end Transparent

end VersionedMap

end GenieAcs
