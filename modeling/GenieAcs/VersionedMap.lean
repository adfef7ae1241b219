import Mathlib.Data.List.Basic
import Mathlib.Tactic.Common
import GenieAcs.Lib.InsMap

/-!
# The versioned map

`lib/versioned-map.ts`. A key holds one slot per revision, a slot being a
value or the `NONEXISTENT` symbol (`none`); reading past the last slot
reads the last slot. Beside the slots the map keeps the current revision,
the per-revision size differences and the mask of dirty revisions.

`Slots` is one key's revision array. Its meaning is the history
`Slots.hist : Nat → Option V`, and the three ways the map changes an array
(a fresh key, a write at or past the newest revision, a collapse) are
described by what they do to the history (`hist_fresh`, `hist_put`,
`hist_collapse`) and to the newest revision.

Masks are 32-bit integers as JavaScript's bit operators compute them: a
shift count is taken modulo 32 and `>>` keeps the sign.
-/

namespace GenieAcs

/-- `1 << i` on 32-bit integers. -/
def bit (i : Nat) : BitVec 32 := 1#32 <<< (i % 32)

theorem bit_getLsbD {i j : Nat} (hi : i < 32) : (bit i).getLsbD j = decide (j = i) := by
  rw [bit, Nat.mod_eq_of_lt hi, BitVec.getLsbD_shiftLeft, BitVec.getLsbD_one]
  by_cases h : j = i
  · subst h; simp [hi]
  · simp only [h, decide_false]
    rcases Nat.lt_or_gt_of_ne h with hlt | hgt
    · simp [hlt]
    · simp [show ¬ j - i = 0 by omega]

/-! ## One key's revision array -/

/-- A revision array: never empty once it is stored. -/
structure Slots (V : Type*) where
  toList : List (Option V)
  ne_nil : toList ≠ []

namespace Slots

variable {V : Type*}

@[ext]
theorem ext {s t : Slots V} (h : s.toList = t.toList) : s = t := by
  cases s; cases t; cases h; rfl

instance [DecidableEq V] : DecidableEq (Slots V) := fun s t =>
  decidable_of_iff (s.toList = t.toList) ⟨Slots.ext, fun h => h ▸ rfl⟩

/-- The newest revision: `revisions.length - 1`. -/
def newest (s : Slots V) : Nat := s.toList.length - 1

theorem length_eq (s : Slots V) : s.toList.length = s.newest + 1 := by
  have := List.length_pos_iff.mpr s.ne_nil
  unfold newest; omega

/-- `revisions[revisions.length - 1]`. -/
def last (s : Slots V) : Option V := s.toList.getLast s.ne_nil

/-- `revisions[Math.min(revisions.length - 1, rev)]`. -/
def hist (s : Slots V) (rev : Nat) : Option V :=
  have h : min s.newest rev < s.toList.length := by rw [length_eq]; omega
  s.toList[min s.newest rev]

theorem hist_of_le {s : Slots V} {i : Nat} (h : i ≤ s.newest) :
    s.hist i = have hi : i < s.toList.length := by rw [length_eq]; omega
      s.toList[i] := by
  simp only [hist, Nat.min_eq_right h]

theorem hist_of_ge {s : Slots V} {i : Nat} (h : s.newest ≤ i) : s.hist i = s.last := by
  simp only [hist, last, List.getLast_eq_getElem, Nat.min_eq_left h]
  rfl

/-- The array of a key first written at `rev`: `NONEXISTENT` below it. -/
def fresh (rev : Nat) (v : Option V) : Slots V :=
  ⟨List.replicate rev none ++ [v], by simp⟩

@[simp]
theorem newest_fresh (rev : Nat) (v : Option V) : (fresh rev v).newest = rev := by
  simp [fresh, newest]

theorem hist_fresh (rev : Nat) (v : Option V) (i : Nat) :
    (fresh rev v).hist i = if i < rev then none else v := by
  by_cases h : i < rev
  · rw [if_pos h, hist_of_le (by simp; omega)]
    simp [fresh, h]
  · rw [if_neg h, hist_of_ge (by simp; omega)]
    simp [last, fresh]

/-- The array after a write at `rev`, no older than the newest revision: the
slots in between repeat the old value. -/
def put (s : Slots V) (rev : Nat) (v : Option V) : Slots V :=
  ⟨s.toList.take rev ++ List.replicate (rev - s.toList.length) s.last ++ [v], by simp⟩

theorem newest_put {s : Slots V} {rev : Nat} (h : s.newest ≤ rev) (v : Option V) :
    (s.put rev v).newest = rev := by
  have := s.length_eq
  simp only [put, newest, List.length_append, List.length_take, List.length_replicate,
    List.length_singleton]
  omega

theorem hist_put {s : Slots V} {rev : Nat} (h : s.newest ≤ rev) (v : Option V) (i : Nat) :
    (s.put rev v).hist i = if i < rev then s.hist i else v := by
  have hlen := s.length_eq
  by_cases hi : i < rev
  · rw [if_pos hi, hist_of_le (by rw [newest_put h]; omega)]
    simp only [put]
    rw [List.getElem_append_left (by
      simp only [List.length_append, List.length_take, List.length_replicate]; omega)]
    by_cases hold : i ≤ s.newest
    · rw [List.getElem_append_left (by rw [List.length_take]; omega), List.getElem_take,
        hist_of_le hold]
    · rw [List.getElem_append_right (by rw [List.length_take]; omega), List.getElem_replicate,
        hist_of_ge (by omega)]
  · rw [if_neg hi, hist_of_ge (by rw [newest_put h]; omega)]
    simp [last, put]

/-- The array after `v.splice(revision, l - revision)`. -/
def collapse (s : Slots V) (rev : Nat) : Slots V :=
  if s.newest ≤ rev then s
  else ⟨s.toList.take rev ++ [s.last], by simp⟩

theorem newest_collapse (s : Slots V) (rev : Nat) :
    (s.collapse rev).newest = min s.newest rev := by
  have := s.length_eq
  unfold collapse
  split
  · omega
  · simp only [newest, List.length_append, List.length_take, List.length_singleton]
    unfold newest at *
    omega

theorem hist_collapse (s : Slots V) (rev i : Nat) :
    (s.collapse rev).hist i = if i < rev then s.hist i else s.last := by
  have hlen := s.length_eq
  unfold collapse
  split
  · rename_i h
    by_cases hi : i < rev
    · rw [if_pos hi]
    · rw [if_neg hi, hist_of_ge (by omega)]
  · rename_i h
    have hnew : (⟨s.toList.take rev ++ [s.last], by simp⟩ : Slots V).newest = rev := by
      simp only [newest, List.length_append, List.length_take, List.length_singleton]; omega
    by_cases hi : i < rev
    · rw [if_pos hi, hist_of_le (by omega), hist_of_le (by omega)]
      rw [List.getElem_append_left (by rw [List.length_take]; omega), List.getElem_take]
    · rw [if_neg hi, hist_of_ge (by omega)]
      simp [last]

/-- Every slot is `NONEXISTENT`. -/
def Vacant (s : Slots V) : Prop := ∀ x ∈ s.toList, x = none

instance [DecidableEq V] (s : Slots V) : Decidable s.Vacant := by
  unfold Vacant; infer_instance

theorem vacant_iff {s : Slots V} : s.Vacant ↔ ∀ i, s.hist i = none := by
  constructor
  · intro h i
    exact h _ (List.getElem_mem _)
  · intro h x hx
    obtain ⟨i, hi, rfl⟩ := List.mem_iff_getElem.mp hx
    rw [← hist_of_le (show i ≤ s.newest by rw [s.length_eq] at hi; omega)]
    exact h i

/-- What `collapse` leaves of an array: the array cut at `rev`, or nothing when
it was cut and no value is left. -/
def cut [DecidableEq V] (rev : Nat) (s : Slots V) : Option (Slots V) :=
  if s.newest ≤ rev then some s
  else if (s.collapse rev).Vacant then none else some (s.collapse rev)

theorem newest_cut [DecidableEq V] {rev : Nat} {s t : Slots V} (h : s.cut rev = some t) :
    t.newest = min s.newest rev := by
  unfold cut at h
  split at h
  · cases h
    omega
  · split at h
    · cases h
    · cases h
      exact newest_collapse s rev

/-- An array without a value that `cut` keeps was not cut. -/
theorem cut_of_vacant [DecidableEq V] {rev : Nat} {s t : Slots V} (h : s.cut rev = some t)
    (ht : t.Vacant) : s = t ∧ s.newest ≤ rev := by
  unfold cut at h
  split at h
  · rename_i hle
    cases h
    exact ⟨rfl, hle⟩
  · split at h
    · cases h
    · rename_i hv
      cases h
      exact absurd ht hv

theorem hist_cut [DecidableEq V] (rev : Nat) (s : Slots V) (i : Nat) :
    (match s.cut rev with
      | none => none
      | some t => t.hist i) = if i < rev then s.hist i else s.last := by
  rw [← hist_collapse]
  unfold cut
  by_cases hle : s.newest ≤ rev
  · rw [if_pos hle, collapse, if_pos hle]
  · rw [if_neg hle]
    by_cases hv : (s.collapse rev).Vacant
    · rw [if_pos hv, vacant_iff.mp hv i]
    · rw [if_neg hv]

end Slots

/-! ## The map -/

/-- `VersionedMap<K, V>`. An entry of `sizeDiff` is `none` where the array
holds `undefined` or `NaN`. -/
structure VersionedMap (K V : Type*) where
  sizeDiff : List (Option Int)
  revision : Nat
  map : InsMap K (Slots V)
  dirty : BitVec 32

/-- `Revisions<V>`: the mutations of a key, by revision, and the mask of the
revisions at which it was deleted. -/
structure Revisions (V : Type*) where
  values : List (Nat × V)
  delete : Option (BitVec 32)

namespace VersionedMap

variable {K V : Type*}

/-- `new VersionedMap()`. -/
def empty : VersionedMap K V := ⟨[some 0], 0, InsMap.empty, 0#32⟩

/-- `this._sizeDiff[i] += d`, growing the array where `i` is past its end. -/
def addSizeDiff (l : List (Option Int)) (i : Nat) (d : Int) : List (Option Int) :=
  if i < l.length then l.modify i (Option.map (· + d))
  else l ++ List.replicate (i + 1 - l.length) none

/-- `for (let i = 0; i < rev; ++i) this._sizeDiff[i] -= 1`. -/
def decSizeDiff (l : List (Option Int)) : Nat → List (Option Int)
  | 0 => l
  | rev + 1 => addSizeDiff (decSizeDiff l rev) rev (-1)

theorem length_addSizeDiff (l : List (Option Int)) (i : Nat) (d : Int) :
    (addSizeDiff l i d).length = max l.length (i + 1) := by
  unfold addSizeDiff
  split
  · rw [List.length_modify]; omega
  · rw [List.length_append, List.length_replicate]; omega

theorem length_decSizeDiff (l : List (Option Int)) (rev : Nat) :
    (decSizeDiff l rev).length = max l.length rev := by
  induction rev with
  | zero => simp [decSizeDiff]
  | succ rev ih => rw [decSizeDiff, length_addSizeDiff, ih]; omega

/-- The `revision` setter. -/
def setRevision (m : VersionedMap K V) (rev : Nat) : VersionedMap K V :=
  { m with
    sizeDiff := m.sizeDiff ++
      List.replicate (rev + 1 - m.sizeDiff.length) (m.sizeDiff.getLast?.getD none)
    revision := rev }

variable [DecidableEq K]

/-- The `size` getter; `none` is `NaN`. -/
def size (m : VersionedMap K V) : Option Int :=
  (m.sizeDiff[m.revision]?.getD none).map (m.map.entries.length + ·)

def get (m : VersionedMap K V) (key : K) (rev : Nat) : Option V :=
  match m.map.get? key with
  | none => none
  | some revisions => revisions.hist rev

def has (m : VersionedMap K V) (key : K) (rev : Nat) : Bool :=
  match m.map.get? key with
  | none => false
  | some revisions => (revisions.hist rev).isSome

/-- `set`; `none` when it returns `null`, leaving the map as it was. -/
def set (m : VersionedMap K V) (key : K) (value : V) (rev : Nat) :
    Option (VersionedMap K V) :=
  match m.map.get? key with
  | none =>
      some { m with
        dirty := m.dirty ||| bit rev
        sizeDiff := decSizeDiff m.sizeDiff rev
        map := m.map.set key (Slots.fresh rev (some value)) }
  | some revisions =>
      -- Can't modify old revisions
      if rev < revisions.newest then none
      else
        some { m with
          dirty := m.dirty ||| bit rev
          sizeDiff :=
            if revisions.last.isNone then addSizeDiff m.sizeDiff rev 1 else m.sizeDiff
          map := m.map.set key (revisions.put rev (some value)) }

/-- `delete`: `null` (`none`), `false` or `true`, with the map afterwards. -/
def delete (m : VersionedMap K V) (key : K) (rev : Nat) :
    Option Bool × VersionedMap K V :=
  match m.map.get? key with
  | none => (some false, m)
  | some revisions =>
      -- Can't modify old revisions
      if rev < revisions.newest then (none, m)
      else if revisions.last.isNone then (some false, m)
      else
        (some true, { m with
          dirty := m.dirty ||| bit rev
          sizeDiff := addSizeDiff m.sizeDiff rev (-1)
          map := m.map.set key (revisions.put rev none) })

def getDiff (m : VersionedMap K V) (key : K) : Option V × Option V :=
  match m.map.get? key with
  | none => (none, none)
  | some revisions => (revisions.hist 0, revisions.last)

omit [DecidableEq K] in
/-- `diff()`, as the list of what it yields. -/
def diff (m : VersionedMap K V) : List (K × Option V × Option V) :=
  m.map.entries.filterMap fun (key, revisions) =>
    if revisions.newest = 0 then none
    else if (revisions.hist 0).isNone && revisions.last.isNone then none
    else some (key, revisions.hist 0, revisions.last)

omit [DecidableEq K] in
def collapse [DecidableEq V] (m : VersionedMap K V) (rev : Nat) : VersionedMap K V :=
  if m.sizeDiff.length ≤ rev then m
  else
    let d := m.dirty.sshiftRight (rev % 32)
    let cleared := m.dirty ^^^ (d <<< (rev % 32))
    { m with
      sizeDiff := m.sizeDiff.take rev ++ [m.sizeDiff.getLast?.getD none]
      dirty := cleared ||| (if d = 0#32 then 0#32 else bit rev)
      map := m.map.filterMap fun _ revisions =>
        if revisions.newest ≤ rev then some revisions
        else if revisions.last.isNone && decide (revisions.collapse rev).Vacant then none
        else some (revisions.collapse rev) }

/-! ## Taking a key out and putting it back -/

/-- `res.delete |= 1 << i` for `NONEXISTENT`, `res[i] = v` for a value. -/
def record (res : Revisions V) (i : Nat) : Option V → Revisions V
  | none => { res with delete := some (res.delete.getD 0#32 ||| bit i) }
  | some v => { res with values := res.values ++ [(i, v)] }

/-- The loop of `getRevisions` over the slots from index `i` on. -/
def getRevisionsLoop [DecidableEq V] :
    Nat → Option V → List (Option V) → Revisions V → Option V × Revisions V
  | _, prev, [], res => (prev, res)
  | i, prev, v :: rest, res =>
      if v = prev then getRevisionsLoop (i + 1) prev rest res
      else getRevisionsLoop (i + 1) v rest (record res i v)

/-- `getRevisions` of a stored revision array. -/
def revisionsOf [DecidableEq V] (revisions : Slots V) : Option (Revisions V) :=
  let (prev, res) := getRevisionsLoop 0 none revisions.toList ⟨[], none⟩
  if prev.isNone && res.delete.isNone then none else some res

def getRevisions [DecidableEq V] (m : VersionedMap K V) (key : K) : Option (Revisions V) :=
  (m.map.get? key).bind revisionsOf

/-- The revisions at which the object has a mutation. -/
def mutations (revisionsObj : Revisions V) : BitVec 32 :=
  revisionsObj.values.foldl (fun acc cur => acc ||| bit cur.1) (revisionsObj.delete.getD 0#32)

/-- The slot of index `i`, `prev` being the one before. -/
def replay (revisionsObj : Revisions V) (i : Nat) (prev : Option V) : Option V :=
  if (revisionsObj.delete.getD 0#32) &&& bit i ≠ 0#32 then none
  else
    match InsMap.find i revisionsObj.values with
    | some v => some v
    | none => prev

/-- `for (let i = 0; mutations >> i; ++i)` of `setRevisions`, with the slots
written and the dirty mask. A shift count is taken modulo 32, so a mask that
is not used up after 32 steps never is: `none` is the loop that runs for ever. -/
def setRevisionsLoop [DecidableEq V] (revisionsObj : Revisions V) :
    Nat → Nat → Option V → BitVec 32 → Option (List (Option V) × BitVec 32)
  | fuel, i, prev, dirty =>
      if (mutations revisionsObj).sshiftRight (i % 32) = 0#32 then some ([], dirty)
      else
        match fuel with
        | 0 => none
        | fuel + 1 =>
            let v := replay revisionsObj i prev
            (setRevisionsLoop revisionsObj fuel (i + 1) v
              (if v ≠ prev then dirty ||| bit i else dirty)).map fun r => (v :: r.1, r.2)

/-- `setRevisions`; `none` when its loop does not terminate. -/
def setRevisions [DecidableEq V] (m : VersionedMap K V) (key : K)
    (revisionsObj : Revisions V) : Option (VersionedMap K V) :=
  (setRevisionsLoop revisionsObj 32 0 none m.dirty).map fun (revisions, dirty) =>
    if h : revisions = [] then m
    else { m with dirty := dirty, map := m.map.set key ⟨revisions, h⟩ }

/-! ## What the operations do to the histories

`get m key` is the key's history. `newest` and `latest` are the two numbers
about it that the operations branch on. -/

/-- The newest revision of a key, `0` for a key that is not stored. -/
def newest (m : VersionedMap K V) (key : K) : Nat :=
  match m.map.get? key with
  | none => 0
  | some revisions => revisions.newest

/-- The value of a key at every late enough revision. -/
def latest (m : VersionedMap K V) (key : K) : Option V :=
  match m.map.get? key with
  | none => none
  | some revisions => revisions.last

theorem get_of_slots {m : VersionedMap K V} {key : K} {s : Slots V}
    (h : m.map.get? key = some s) (i : Nat) : m.get key i = s.hist i := by
  simp only [get, h]

theorem newest_of_slots {m : VersionedMap K V} {key : K} {s : Slots V}
    (h : m.map.get? key = some s) : m.newest key = s.newest := by
  simp only [newest, h]

theorem latest_of_slots {m : VersionedMap K V} {key : K} {s : Slots V}
    (h : m.map.get? key = some s) : m.latest key = s.last := by
  simp only [latest, h]

theorem get_of_absent {m : VersionedMap K V} {key : K}
    (h : m.map.get? key = none) (i : Nat) : m.get key i = none := by
  simp only [get, h]

theorem newest_of_absent {m : VersionedMap K V} {key : K}
    (h : m.map.get? key = none) : m.newest key = 0 := by
  simp only [newest, h]

theorem latest_of_absent {m : VersionedMap K V} {key : K}
    (h : m.map.get? key = none) : m.latest key = none := by
  simp only [latest, h]

theorem get_of_ge {m : VersionedMap K V} {key : K} {i : Nat} (h : m.newest key ≤ i) :
    m.get key i = m.latest key := by
  cases hs : m.map.get? key with
  | none => rw [get_of_absent hs, latest_of_absent hs]
  | some s =>
      rw [newest_of_slots hs] at h
      rw [get_of_slots hs, latest_of_slots hs, Slots.hist_of_ge h]

theorem has_eq (m : VersionedMap K V) (key : K) (rev : Nat) :
    m.has key rev = (m.get key rev).isSome := by
  unfold has get
  cases m.map.get? key <;> rfl

@[simp]
theorem get_setRevision (m : VersionedMap K V) (r : Nat) (key : K) (i : Nat) :
    (m.setRevision r).get key i = m.get key i := rfl

@[simp]
theorem newest_setRevision (m : VersionedMap K V) (r : Nat) (key : K) :
    (m.setRevision r).newest key = m.newest key := rfl

omit [DecidableEq K] in
theorem length_setRevision (m : VersionedMap K V) (r : Nat) :
    (m.setRevision r).sizeDiff.length = max m.sizeDiff.length (r + 1) := by
  simp only [setRevision, List.length_append, List.length_replicate]
  omega

/-- The revision array of `key` after a write of `v` at `rev`. -/
def written (m : VersionedMap K V) (key : K) (rev : Nat) (v : Option V) : Slots V :=
  match m.map.get? key with
  | none => Slots.fresh rev v
  | some s => s.put rev v

theorem newest_written {m : VersionedMap K V} {key : K} {rev : Nat}
    (h : m.newest key ≤ rev) (v : Option V) : (m.written key rev v).newest = rev := by
  cases hs : m.map.get? key with
  | none => simp only [written, hs, Slots.newest_fresh]
  | some s =>
      rw [newest_of_slots hs] at h
      simp only [written, hs, Slots.newest_put h]

theorem hist_written {m : VersionedMap K V} {key : K} {rev : Nat}
    (h : m.newest key ≤ rev) (v : Option V) (i : Nat) :
    (m.written key rev v).hist i = if i < rev then m.get key i else v := by
  cases hs : m.map.get? key with
  | none => simp only [written, hs, Slots.hist_fresh, get_of_absent hs]
  | some s =>
      rw [newest_of_slots hs] at h
      simp only [written, hs, Slots.hist_put h, get_of_slots hs]

theorem set_of_absent {m : VersionedMap K V} {key : K} (hs : m.map.get? key = none) (v : V)
    (rev : Nat) :
    m.set key v rev = some { m with
      dirty := m.dirty ||| bit rev
      sizeDiff := decSizeDiff m.sizeDiff rev
      map := m.map.set key (Slots.fresh rev (some v)) } := by
  rw [set, hs]

theorem set_of_slots {m : VersionedMap K V} {key : K} {s : Slots V}
    (hs : m.map.get? key = some s) {rev : Nat} (h : s.newest ≤ rev) (v : V) :
    m.set key v rev = some { m with
      dirty := m.dirty ||| bit rev
      sizeDiff := if s.last.isNone then addSizeDiff m.sizeDiff rev 1 else m.sizeDiff
      map := m.map.set key (s.put rev (some v)) } := by
  rw [set, hs]
  exact if_neg (Nat.not_lt.mpr h)

theorem delete_of_slots {m : VersionedMap K V} {key : K} {s : Slots V}
    (hs : m.map.get? key = some s) {rev : Nat} (h : s.newest ≤ rev) (hl : s.last ≠ none) :
    m.delete key rev = (some true, { m with
      dirty := m.dirty ||| bit rev
      sizeDiff := addSizeDiff m.sizeDiff rev (-1)
      map := m.map.set key (s.put rev none) }) := by
  rw [delete, hs]
  simp only [if_neg (Nat.not_lt.mpr h)]
  rw [if_neg (by simpa using hl)]

/-- A write at or past the newest revision of its key is accepted. -/
theorem set_eq {m : VersionedMap K V} {key : K} {rev : Nat} (h : m.newest key ≤ rev) (v : V) :
    ∃ m', m.set key v rev = some m' ∧ m'.map = m.map.set key (m.written key rev (some v))
      ∧ m'.revision = m.revision
      ∧ m.sizeDiff.length ≤ m'.sizeDiff.length
      ∧ m'.sizeDiff.length ≤ max m.sizeDiff.length (rev + 1) := by
  cases hs : m.map.get? key with
  | none =>
      refine ⟨_, set_of_absent hs v rev, by simp only [written, hs], rfl, ?_⟩
      simp only [length_decSizeDiff]
      omega
  | some s =>
      rw [newest_of_slots hs] at h
      refine ⟨_, set_of_slots hs h v, by simp only [written, hs], rfl, ?_⟩
      simp only
      split
      · rw [length_addSizeDiff]
        omega
      · omega

/-- A write below the newest revision of its key is refused. -/
theorem set_refused {m : VersionedMap K V} {key : K} {rev : Nat} (h : rev < m.newest key)
    (v : V) : m.set key v rev = none := by
  cases hs : m.map.get? key with
  | none => rw [newest_of_absent hs] at h; omega
  | some s =>
      rw [newest_of_slots hs] at h
      rw [set, hs]
      exact if_pos h

/-- What `delete` does at or past the newest revision of its key: nothing where
the key has no value any more, else a write of `NONEXISTENT`. -/
theorem delete_eq {m : VersionedMap K V} {key : K} {rev : Nat} (h : m.newest key ≤ rev) :
    (m.latest key = none ∧ m.delete key rev = (some false, m)) ∨
    (m.latest key ≠ none ∧ ∃ m', m.delete key rev = (some true, m')
      ∧ m'.map = m.map.set key (m.written key rev none) ∧ m'.revision = m.revision
      ∧ m.sizeDiff.length ≤ m'.sizeDiff.length
      ∧ m'.sizeDiff.length ≤ max m.sizeDiff.length (rev + 1)) := by
  cases hs : m.map.get? key with
  | none => exact Or.inl ⟨latest_of_absent hs, by rw [delete, hs]⟩
  | some s =>
      rw [newest_of_slots hs] at h
      rw [latest_of_slots hs]
      by_cases hl : s.last = none
      · refine Or.inl ⟨hl, ?_⟩
        rw [delete, hs]
        simp [Nat.not_lt.mpr h, hl]
      · refine Or.inr ⟨hl, _, delete_of_slots hs h hl, by simp only [written, hs], rfl, ?_⟩
        simp only [length_addSizeDiff]
        omega

theorem delete_refused {m : VersionedMap K V} {key : K} {rev : Nat}
    (h : rev < m.newest key) : m.delete key rev = (none, m) := by
  cases hs : m.map.get? key with
  | none => rw [newest_of_absent hs] at h; omega
  | some s =>
      rw [newest_of_slots hs] at h
      rw [delete, hs]
      exact if_pos h

/-- A map that replaces one key's array: the history of that key is the
array's, the others are as before. -/
theorem get_of_map_set {m m' : VersionedMap K V} {key : K} {s : Slots V}
    (h : m'.map = m.map.set key s) (k : K) (i : Nat) :
    m'.get k i = if k = key then s.hist i else m.get k i := by
  unfold get
  rw [h, InsMap.get?_set]
  by_cases hk : k = key <;> simp [hk]

theorem newest_of_map_set {m m' : VersionedMap K V} {key : K} {s : Slots V}
    (h : m'.map = m.map.set key s) (k : K) :
    m'.newest k = if k = key then s.newest else m.newest k := by
  unfold newest
  rw [h, InsMap.get?_set]
  by_cases hk : k = key <;> simp [hk]

section Collapse

variable [DecidableEq V]

omit [DecidableEq K] in
/-- The early return of `collapse`. -/
theorem collapse_of_le {m : VersionedMap K V} {rev : Nat} (h : m.sizeDiff.length ≤ rev) :
    m.collapse rev = m := if_pos h

theorem get?_collapse {m : VersionedMap K V} {rev : Nat} (h : rev < m.sizeDiff.length) (k : K) :
    (m.collapse rev).map.get? k = (m.map.get? k).bind (Slots.cut rev) := by
  rw [collapse, if_neg (by omega)]
  simp only [InsMap.get?_filterMap]
  congr 1
  funext s
  unfold Slots.cut
  by_cases hn : s.newest ≤ rev
  · simp [hn]
  · by_cases hv : (s.collapse rev).Vacant
    · have hl : s.last = none := by
        have := Slots.vacant_iff.mp hv rev
        rwa [Slots.hist_collapse, if_neg (Nat.lt_irrefl _)] at this
      simp [hn, hv, hl]
    · simp [hn, hv]

omit [DecidableEq K] in
theorem length_collapse {m : VersionedMap K V} {rev : Nat} (h : rev < m.sizeDiff.length) :
    (m.collapse rev).sizeDiff.length = rev + 1 := by
  rw [collapse, if_neg (by omega)]
  simp only [List.length_append, List.length_take, List.length_singleton]
  omega

omit [DecidableEq K] in
@[simp]
theorem revision_collapse (m : VersionedMap K V) (rev : Nat) :
    (m.collapse rev).revision = m.revision := by
  unfold collapse; split <;> rfl

/-- A map that holds `m`'s arrays cut at `rev`. -/
def Cuts (rev : Nat) (m n : VersionedMap K V) : Prop :=
  ∀ k, n.map.get? k = (m.map.get? k).bind (Slots.cut rev)

theorem Cuts.get {rev : Nat} {m n : VersionedMap K V} (h : Cuts rev m n) (k : K) (i : Nat) :
    n.get k i = if i < rev then m.get k i else m.latest k := by
  have hk := h k
  cases hs : m.map.get? k with
  | none =>
      rw [hs, Option.bind_none] at hk
      rw [get_of_absent hk, get_of_absent hs, latest_of_absent hs, ite_self]
  | some s =>
      rw [hs, Option.bind_some] at hk
      rw [get_of_slots hs, latest_of_slots hs, ← Slots.hist_cut, VersionedMap.get, hk]

theorem Cuts.newest {rev : Nat} {m n : VersionedMap K V} (h : Cuts rev m n) {k : K}
    (hk : n.map.get? k ≠ none) : n.newest k = min (m.newest k) rev := by
  obtain ⟨t, ht⟩ := Option.ne_none_iff_exists'.mp hk
  obtain ⟨s, hs, hcut⟩ := Option.bind_eq_some_iff.mp ((h k).symm.trans ht)
  rw [newest_of_slots ht, newest_of_slots hs, Slots.newest_cut hcut]

theorem Cuts.newest_le {rev : Nat} {m n : VersionedMap K V} (h : Cuts rev m n) (k : K) :
    n.newest k ≤ min (m.newest k) rev := by
  by_cases hk : n.map.get? k = none
  · rw [newest_of_absent hk]
    exact Nat.zero_le _
  · exact Nat.le_of_eq (h.newest hk)

end Collapse

end VersionedMap

end GenieAcs
