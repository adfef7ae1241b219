import GenieAcs.Like
import GenieAcs.Lib.InsMap
import GenieAcs.Lib.Mask

/-!
# Sets of paths

The paths of a device are looked up by pattern, so they are kept in three
indexes: all of them, by length, and by the fragment at each position. The two
derived indexes are fields with the equations that tie them to the first, and
`mem_find` says what a search over them finds.
-/

namespace GenieAcs

/-! ## Paths without aliases -/

/-- A path without aliases, by its fragments. -/
abbrev Path := List JsString

instance Path.instLawfulBEq : LawfulBEq Path := inferInstanceAs (LawfulBEq (List JsString))

/-- The fragment that stands for any name. -/
def star : JsString := js "*"

namespace Path

def wildcardFrom : Nat → Path → Mask
  | _, [] => 0
  | i, f :: fs => (if f = star then Mask.bit i else 0) ||| wildcardFrom (i + 1) fs

/-- `path.wildcard`: the positions of the wildcards as a 32-bit integer. -/
def wildcard (path : Path) : Mask := wildcardFrom 0 path

theorem getLsbD_wildcardFrom (path : Path) (k i : Nat) :
    (wildcardFrom k path).getLsbD i = true
      ↔ ∃ j, path[j]? = some star ∧ i = (k + j) % 32 := by
  induction path generalizing k with
  | nil => simp [wildcardFrom]
  | cons f fs ih =>
      have hhead : (if f = star then Mask.bit k else 0).getLsbD i = true
          ↔ f = star ∧ i = k % 32 := by
        by_cases hf : f = star
        · rw [if_pos hf, ← Mask.bit_mod, Mask.getLsbD_bit (Nat.mod_lt k (by omega))]
          simp [hf]
        · simp [hf]
      rw [wildcardFrom, BitVec.getLsbD_or, Bool.or_eq_true, hhead, ih]
      constructor
      · rintro (⟨rfl, hi⟩ | ⟨j, hj, hi⟩)
        · exact ⟨0, rfl, hi⟩
        · exact ⟨j + 1, hj, by rw [hi]; congr 1; omega⟩
      · rintro ⟨j, hj, hi⟩
        cases j with
        | zero => exact Or.inl ⟨Option.some.inj hj, hi⟩
        | succ j => exact Or.inr ⟨j, hj, by rw [hi]; congr 1; omega⟩

/-- The test of a wildcard's own bit succeeds, also beyond the 32nd fragment. -/
theorem test_wildcard {path : Path} {i : Nat} (h : path[i]? = some star) :
    Mask.test path.wildcard i = true := by
  rw [Mask.test_mod, wildcard, getLsbD_wildcardFrom]
  exact ⟨i, h, by rw [Nat.zero_add]⟩

theorem test_wildcard_iff {path : Path} {i : Nat} (h : path.length ≤ 32)
    (hi : i < path.length) : Mask.test path.wildcard i = true ↔ path[i]? = some star := by
  constructor
  · rw [Mask.test_mod, wildcard, getLsbD_wildcardFrom]
    rintro ⟨j, hj, heq⟩
    have hlt : j < path.length := (List.getElem?_eq_some_iff.mp hj).1
    have hij : j = i := by omega
    exact hij ▸ hj
  · exact test_wildcard

theorem wildcard_eq_zero {path : Path} : path.wildcard = 0 ↔ star ∉ path := by
  constructor
  · intro h hmem
    obtain ⟨i, hi⟩ := List.mem_iff_getElem?.mp hmem
    have htest := test_wildcard hi
    rw [h, Mask.test_mod] at htest
    simp at htest
  · intro h
    apply BitVec.eq_of_getLsbD_eq
    intro i _
    have hzero : (0 : Mask).getLsbD i = false := BitVec.getLsbD_zero
    rw [hzero, ← Bool.not_eq_true, wildcard, getLsbD_wildcardFrom]
    rintro ⟨j, hj, -⟩
    exact h (List.mem_iff_getElem?.mpr ⟨j, hj⟩)

theorem test_of_plain {path : Path} (h : star ∉ path) (i : Nat) :
    Mask.test path.wildcard i = false := by
  rw [wildcard_eq_zero.mpr h, Mask.test_mod]
  simp

end Path

/-! ## The indexes -/

/-- An entry of an array that grows with empty entries. -/
def indexed {α : Type} (empty : α) (l : List α) (i : Nat) : α := l[i]?.getD empty

theorem indexed_cons_zero {α : Type} (empty a : α) (l : List α) :
    indexed empty (a :: l) 0 = a := rfl

theorem indexed_cons_succ {α : Type} (empty a : α) (l : List α) (i : Nat) :
    indexed empty (a :: l) (i + 1) = indexed empty l i := rfl

theorem indexed_tail {α : Type} (empty : α) (l : List α) (i : Nat) :
    indexed empty l.tail i = indexed empty l (i + 1) := by
  cases l <;> rfl

theorem headD_eq_indexed {α : Type} (empty : α) (l : List α) :
    l.headD empty = indexed empty l 0 := by
  cases l <;> rfl

abbrev Fragments := InsMap JsString (List Path)

def Fragments.paths (m : Fragments) (f : JsString) : List Path := (m.get? f).getD []

/-- `lengthIndex`, grown up to the length of the new path. -/
def addLength (path : Path) : Nat → List (List Path) → List (List Path)
  | 0, index => (index.headD [] ++ [path]) :: index.tail
  | n + 1, index => index.headD [] :: addLength path n index.tail

/-- `fragmentIndex`, one fragment of the new path at a time. -/
def addFragments (path : Path) : Path → List Fragments → List Fragments
  | [], index => index
  | f :: fs, index =>
      let m := index.headD .empty
      m.set f (m.paths f ++ [path]) :: addFragments path fs index.tail

theorem indexed_addLength (path : Path) (n : Nat) (index : List (List Path)) (i : Nat) :
    indexed [] (addLength path n index) i
      = if i = n then indexed [] index i ++ [path] else indexed [] index i := by
  induction n generalizing index i with
  | zero =>
      cases i with
      | zero => rw [addLength, indexed_cons_zero, if_pos rfl, headD_eq_indexed]
      | succ i => rw [addLength, indexed_cons_succ, indexed_tail, if_neg (by omega)]
  | succ n ih =>
      cases i with
      | zero => rw [addLength, indexed_cons_zero, if_neg (by omega), headD_eq_indexed]
      | succ i =>
          rw [addLength, indexed_cons_succ, ih, indexed_tail]
          by_cases h : i = n
          · rw [if_pos h, if_pos (by omega)]
          · rw [if_neg h, if_neg (by omega)]

theorem indexed_addFragments (path fs : Path) (index : List Fragments) (i : Nat) (f : JsString) :
    (indexed .empty (addFragments path fs index) i).paths f
      = if fs[i]? = some f then (indexed .empty index i).paths f ++ [path]
        else (indexed .empty index i).paths f := by
  induction fs generalizing index i with
  | nil => rfl
  | cons g gs ih =>
      cases i with
      | zero =>
          rw [addFragments, indexed_cons_zero, headD_eq_indexed, Fragments.paths, InsMap.get?_set]
          by_cases h : f = g
          · subst h
            have heq : (f :: gs)[0]? = some f := rfl
            rw [if_pos rfl, if_pos heq]
            rfl
          · have hne : (g :: gs)[0]? ≠ some f := fun heq => h (Option.some.inj heq).symm
            rw [if_neg h, if_neg hne]
            rfl
      | succ i =>
          rw [addFragments, indexed_cons_succ, ih, indexed_tail]
          rfl

/-- A set of paths. The text of a path determines its fragments, so that
`stringIndex` is the list of the paths themselves. -/
structure PathSet where
  paths : List Path
  lengthIndex : List (List Path)
  fragmentIndex : List Fragments
  byLength : ∀ n, indexed [] lengthIndex n = paths.filter (fun p => p.length = n)
  byFragment : ∀ i f,
    (indexed .empty fragmentIndex i).paths f = paths.filter (fun p => p[i]? = some f)

namespace PathSet

def empty : PathSet where
  paths := []
  lengthIndex := []
  fragmentIndex := []
  byLength _ := rfl
  byFragment _ _ := rfl

instance : Membership Path PathSet where
  mem s p := p ∈ s.paths

instance (p : Path) (s : PathSet) : Decidable (p ∈ s) := inferInstanceAs (Decidable (p ∈ s.paths))

def add (s : PathSet) (path : Path) : PathSet :=
  if path ∈ s then s
  else
    { paths := s.paths ++ [path]
      lengthIndex := addLength path path.length s.lengthIndex
      fragmentIndex := addFragments path path s.fragmentIndex
      byLength := by
        intro n
        rw [indexed_addLength, List.filter_append, s.byLength]
        by_cases h : n = path.length
        · simp [h]
        · simp [h, Ne.symm h]
      byFragment := by
        intro i f
        rw [indexed_addFragments, List.filter_append, s.byFragment]
        by_cases h : path[i]? = some f <;> simp [h] }

theorem mem_add {s : PathSet} {path p : Path} : p ∈ s.add path ↔ p = path ∨ p ∈ s := by
  rw [add]
  by_cases h : path ∈ s
  · rw [if_pos h]
    exact ⟨Or.inr, fun hp => hp.elim (fun heq => heq ▸ h) id⟩
  · rw [if_neg h]
    show p ∈ s.paths ++ [path] ↔ _
    rw [List.mem_append, List.mem_singleton]
    exact or_comm

/-! ## Searching -/

/-- The paths with a given fragment at a position. -/
def fragment (s : PathSet) (i : Nat) (f : JsString) : List Path :=
  (indexed .empty s.fragmentIndex i).paths f

theorem mem_fragment {s : PathSet} {i : Nat} {f : JsString} {p : Path} :
    p ∈ s.fragment i f ↔ p ∈ s ∧ p[i]? = some f := by
  rw [fragment, s.byFragment, List.mem_filter, decide_eq_true_eq]
  exact Iff.rfl

/-- The loop of `find` over the fragments of `path`, from the last to the
first; `none` stands for no result yet. -/
def narrow (s : PathSet) (path : Path) (superset subset : Bool) :
    Nat → Option (List Path) → Option (List Path)
  | 0, res => res
  | i + 1, res =>
      let wild := Mask.test path.wildcard i
      if wild && subset then s.narrow path superset subset i res
      else
        let set2 := if !wild && superset then s.fragment i star else []
        let set1 := s.fragment i (path.getD i [])
        let res := match res with
          | none => set1 ++ set2
          | some r => r.filter (fun p => p ∈ set1 || p ∈ set2)
        if res.isEmpty then some [] else s.narrow path superset subset i (some res)

def find (s : PathSet) (path : Path) (superset subset : Bool) (depth : Nat) : List Path :=
  if !superset && depth == path.length && (!subset || path.wildcard == 0) then
    if path ∈ s then [path] else []
  else
    let lengthIndex := (s.lengthIndex.take (depth + 1)).drop path.length
    if lengthIndex.isEmpty then []
    else match s.narrow path superset subset path.length none with
      | none => lengthIndex.flatten
      | some res => res.filter (fun p => lengthIndex.any (fun a => p ∈ a))

/-- `p` passes the test of `find` at position `i` of `path`. -/
def Agrees (path : Path) (superset subset : Bool) (i : Nat) (p : Path) : Prop :=
  (Mask.test path.wildcard i = true ∧ subset = true)
    ∨ p[i]? = some (path.getD i [])
    ∨ (superset = true ∧ Mask.test path.wildcard i = false ∧ p[i]? = some star)

/-- What an intermediate result stands for. -/
def Among (s : PathSet) (p : Path) : Option (List Path) → Prop
  | none => p ∈ s
  | some r => p ∈ r

theorem mem_narrow {s : PathSet} {path p : Path} {superset subset : Bool} (n : Nat)
    (res : Option (List Path)) (hres : ∀ q, s.Among q res → q ∈ s) :
    s.Among p (s.narrow path superset subset n res)
      ↔ s.Among p res ∧ ∀ i < n, Agrees path superset subset i p := by
  induction n generalizing res with
  | zero => exact ⟨fun h => ⟨h, fun i hi => absurd hi (Nat.not_lt_zero i)⟩, fun h => h.1⟩
  | succ n ih =>
      have hall : ∀ R : Prop, (R ∧ Agrees path superset subset n p)
          ∧ (∀ i < n, Agrees path superset subset i p)
          ↔ R ∧ ∀ i < n + 1, Agrees path superset subset i p := by
        intro R
        constructor
        · rintro ⟨⟨hR, hn⟩, h⟩
          refine ⟨hR, fun i hi => ?_⟩
          rcases Nat.lt_succ_iff_lt_or_eq.mp hi with hlt | rfl
          · exact h i hlt
          · exact hn
        · rintro ⟨hR, h⟩
          exact ⟨⟨hR, h n (Nat.lt_succ_self n)⟩, fun i hi => h i (Nat.lt_succ_of_lt hi)⟩
      rw [← hall, narrow]
      by_cases hskip : (Mask.test path.wildcard n && subset) = true
      · rw [if_pos hskip, ih res hres]
        have hagrees : Agrees path superset subset n p :=
          Or.inl ((Bool.and_eq_true _ _).mp hskip)
        exact and_congr_left' ⟨fun h => ⟨h, hagrees⟩, fun h => h.1⟩
      · rw [if_neg hskip]
        extract_lets set2 set1 res'
        have hset2 : ∀ q, q ∈ set2 ↔ q ∈ s ∧ superset = true
            ∧ Mask.test path.wildcard n = false ∧ q[n]? = some star := by
          intro q
          by_cases hsup : (!Mask.test path.wildcard n && superset) = true
          · have hboth : Mask.test path.wildcard n = false ∧ superset = true := by
              simpa using hsup
            have hset : set2 = s.fragment n star := if_pos hsup
            rw [hset, mem_fragment]
            simp [hboth]
          · have hnone : set2 = [] := if_neg hsup
            rw [hnone]
            simp only [List.not_mem_nil, false_iff]
            rintro ⟨-, hs, hw, -⟩
            exact hsup (by rw [hs, hw]; rfl)
        have hsets : ∀ q, q ∈ set1 ∨ q ∈ set2 ↔ q ∈ s ∧ Agrees path superset subset n q := by
          intro q
          rw [hset2, mem_fragment]
          constructor
          · rintro (⟨hq, heq⟩ | ⟨hq, hs, hw, heq⟩)
            · exact ⟨hq, Or.inr (Or.inl heq)⟩
            · exact ⟨hq, Or.inr (Or.inr ⟨hs, hw, heq⟩)⟩
          · rintro ⟨hq, hskip' | heq | ⟨hs, hw, heq⟩⟩
            · exact absurd ((Bool.and_eq_true _ _).mpr hskip') hskip
            · exact Or.inl ⟨hq, heq⟩
            · exact Or.inr ⟨hq, hs, hw, heq⟩
        have hres' : ∀ q, q ∈ res' ↔ s.Among q res ∧ Agrees path superset subset n q := by
          intro q
          cases res with
          | none =>
              show q ∈ set1 ++ set2 ↔ _
              rw [List.mem_append, hsets]
              exact Iff.rfl
          | some r =>
              show q ∈ r.filter (fun p => p ∈ set1 || p ∈ set2) ↔ _
              rw [List.mem_filter]
              simp only [Bool.or_eq_true, decide_eq_true_eq, hsets]
              exact ⟨fun h => ⟨h.1, h.2.2⟩, fun h => ⟨h.1, hres q h.1, h.2⟩⟩
        by_cases hempty : res'.isEmpty = true
        · rw [if_pos hempty]
          have hnil : res' = [] := List.isEmpty_iff.mp hempty
          constructor
          · intro h
            exact absurd h (List.not_mem_nil)
          · rintro ⟨h, -⟩
            have hmem := (hres' p).mpr h
            rw [hnil] at hmem
            exact absurd hmem (List.not_mem_nil)
        · rw [if_neg hempty, ih (some res') (fun q hq => hres q ((hres' q).mp hq).1)]
          exact and_congr_left' (hres' p)

theorem mem_lengths {s : PathSet} {p : Path} {len depth : Nat} :
    (∃ a ∈ (s.lengthIndex.take (depth + 1)).drop len, p ∈ a)
      ↔ p ∈ s ∧ len ≤ p.length ∧ p.length ≤ depth := by
  have hat : ∀ n, p ∈ indexed [] s.lengthIndex n ↔ p ∈ s ∧ p.length = n := by
    intro n
    rw [s.byLength, List.mem_filter, decide_eq_true_eq]
    exact Iff.rfl
  constructor
  · rintro ⟨a, ha, hp⟩
    obtain ⟨i, hi⟩ := List.mem_iff_getElem?.mp ha
    rw [List.getElem?_drop, List.getElem?_take] at hi
    by_cases hlt : len + i < depth + 1
    · rw [if_pos hlt] at hi
      have hmem : p ∈ indexed [] s.lengthIndex (len + i) := by
        rw [indexed, hi]
        exact hp
      obtain ⟨hs, hlen⟩ := (hat _).mp hmem
      exact ⟨hs, by omega, by omega⟩
    · rw [if_neg hlt] at hi
      cases hi
  · rintro ⟨hs, hge, hle⟩
    have hmem := (hat p.length).mpr ⟨hs, rfl⟩
    rw [indexed] at hmem
    cases hget : s.lengthIndex[p.length]? with
    | none =>
        rw [hget] at hmem
        exact absurd hmem List.not_mem_nil
    | some a =>
        rw [hget] at hmem
        refine ⟨a, List.mem_iff_getElem?.mpr ⟨p.length - len, ?_⟩, hmem⟩
        rw [List.getElem?_drop, List.getElem?_take, Nat.add_sub_cancel' hge,
          if_pos (Nat.lt_succ_of_le hle), hget]

theorem mem_find {s : PathSet} {path p : Path} {superset subset : Bool} {depth : Nat} :
    p ∈ s.find path superset subset depth
      ↔ p ∈ s ∧ path.length ≤ p.length ∧ p.length ≤ depth
        ∧ ∀ i < path.length, Agrees path superset subset i p := by
  rw [find]
  by_cases hget : (!superset && depth == path.length && (!subset || path.wildcard == 0)) = true
  · rw [if_pos hget]
    obtain ⟨⟨hsup, hdepth⟩, hsub⟩ :
        (superset = false ∧ depth = path.length) ∧ (subset = false ∨ path.wildcard = 0) := by
      simpa using hget
    subst hdepth
    have hexact : (∀ i < path.length, Agrees path superset subset i p)
        ↔ ∀ i < path.length, p[i]? = path[i]? := by
      refine forall₂_congr fun i hi => ?_
      have hat : path[i]? = some (path.getD i []) := by
        rw [List.getD_eq_getElem?_getD, List.getElem?_eq_getElem hi]
        rfl
      rw [hat]
      constructor
      · rintro (⟨htest, hs⟩ | heq | ⟨hs, -, -⟩)
        · rcases hsub with hsub | hzero
          · rw [hsub] at hs
            cases hs
          · rw [hzero, Mask.test_mod] at htest
            simp at htest
        · exact heq
        · rw [hsup] at hs
          cases hs
      · exact fun heq => Or.inr (Or.inl heq)
    have hlist : p ∈ (if path ∈ s then [path] else []) ↔ p ∈ s ∧ p = path := by
      by_cases hmem : path ∈ s
      · rw [if_pos hmem, List.mem_singleton]
        exact ⟨fun h => ⟨h ▸ hmem, h⟩, fun h => h.2⟩
      · rw [if_neg hmem]
        exact ⟨fun h => absurd h List.not_mem_nil, fun h => absurd (h.2 ▸ h.1) hmem⟩
    rw [hlist, hexact]
    constructor
    · rintro ⟨hs, rfl⟩
      exact ⟨hs, le_rfl, le_rfl, fun _ _ => rfl⟩
    · rintro ⟨hs, hge, hle, heq⟩
      refine ⟨hs, List.ext_getElem? fun i => ?_⟩
      by_cases hi : i < path.length
      · exact heq i hi
      · rw [List.getElem?_eq_none (by omega), List.getElem?_eq_none (by omega)]
  · rw [if_neg hget]
    extract_lets lengthIndex
    have hlengths := @mem_lengths s p path.length depth
    have hnarrow := @mem_narrow s path p superset subset path.length none (fun q hq => hq)
    by_cases hempty : lengthIndex.isEmpty = true
    · rw [if_pos hempty]
      have hnil : lengthIndex = [] := List.isEmpty_iff.mp hempty
      constructor
      · exact fun h => absurd h List.not_mem_nil
      · rintro ⟨hs, hge, hle, -⟩
        obtain ⟨a, ha, -⟩ := hlengths.mpr ⟨hs, hge, hle⟩
        rw [show (s.lengthIndex.take (depth + 1)).drop path.length = [] from hnil] at ha
        exact absurd ha List.not_mem_nil
    · rw [if_neg hempty]
      cases hres : s.narrow path superset subset path.length none with
      | none =>
          rw [hres] at hnarrow
          show p ∈ lengthIndex.flatten ↔ _
          rw [List.mem_flatten, hlengths]
          exact ⟨fun h => ⟨h.1, h.2.1, h.2.2, (hnarrow.mp h.1).2⟩, fun h => ⟨h.1, h.2.1, h.2.2.1⟩⟩
      | some res =>
          rw [hres] at hnarrow
          show p ∈ res.filter (fun p => lengthIndex.any (fun a => p ∈ a)) ↔ _
          rw [List.mem_filter, List.any_eq_true]
          simp only [decide_eq_true_eq]
          rw [hlengths]
          constructor
          · rintro ⟨hp, hs, hge, hle⟩
            exact ⟨hs, hge, hle, (hnarrow.mp hp).2⟩
          · rintro ⟨hs, hge, hle, hall⟩
            exact ⟨hnarrow.mpr ⟨hs, hall⟩, hs, hge, hle⟩

/-! ## Sets built by adding -/

/-- The set after a sequence of calls of `add`. -/
def addAll (added : List Path) : PathSet := added.foldl add empty

theorem mem_foldl_add (added : List Path) (s : PathSet) (p : Path) :
    p ∈ added.foldl add s ↔ p ∈ added ∨ p ∈ s := by
  induction added generalizing s with
  | nil => simp
  | cons q added ih => rw [List.foldl_cons, ih, mem_add, List.mem_cons, or_left_comm, or_assoc]

theorem mem_addAll {added : List Path} {p : Path} : p ∈ addAll added ↔ p ∈ added := by
  rw [addAll, mem_foldl_add]
  exact or_iff_left (List.not_mem_nil)

theorem add_nodup {s : PathSet} (h : s.paths.Nodup) (path : Path) : (s.add path).paths.Nodup := by
  rw [add]
  by_cases hmem : path ∈ s
  · rw [if_pos hmem]
    exact h
  · rw [if_neg hmem]
    exact h.append (List.nodup_singleton path) (List.disjoint_singleton.mpr hmem)

theorem addAll_nodup (added : List Path) : (addAll added).paths.Nodup := by
  have hfold : ∀ s : PathSet, s.paths.Nodup → (added.foldl add s).paths.Nodup := by
    induction added with
    | nil => exact fun s h => h
    | cons p added ih => exact fun s h => ih _ (add_nodup h p)
  exact hfold empty List.nodup_nil

theorem fragment_nodup {s : PathSet} (h : s.paths.Nodup) (i : Nat) (f : JsString) :
    (s.fragment i f).Nodup := by
  rw [fragment, s.byFragment]
  exact h.filter _

theorem narrow_nodup {s : PathSet} (h : s.paths.Nodup) {path : Path} {superset subset : Bool}
    (n : Nat) (hn : n ≤ path.length) (res : Option (List Path)) (hres : ∀ r, res = some r → r.Nodup) :
    ∀ r, s.narrow path superset subset n res = some r → r.Nodup := by
  induction n generalizing res with
  | zero => exact hres
  | succ n ih =>
      rw [narrow]
      by_cases hskip : (Mask.test path.wildcard n && subset) = true
      · rw [if_pos hskip]
        exact ih (by omega) res hres
      · rw [if_neg hskip]
        extract_lets set2 set1 res'
        have hres' : res'.Nodup := by
          cases res with
          | some r => exact (hres r rfl).filter _
          | none =>
              refine (fragment_nodup h n _).append ?_ fun p h1 h2 => ?_
              · show (if (!Mask.test path.wildcard n && superset) = true then s.fragment n star
                  else []).Nodup
                split
                · exact fragment_nodup h n star
                · exact List.nodup_nil
              · -- a fragment that is searched together with `*` is not `*`
                have h1 := (mem_fragment.mp h1).2
                change p ∈ (if (!Mask.test path.wildcard n && superset) = true then s.fragment n star
                  else []) at h2
                split at h2
                · rename_i hplain
                  rw [(mem_fragment.mp h2).2] at h1
                  have hat : path[n]? = some star := by
                    rw [List.getElem?_eq_getElem (by omega), Option.some.injEq, Option.some.inj h1]
                    exact (List.getElem_eq_getD []).symm ▸ rfl
                  rw [Path.test_wildcard hat] at hplain
                  cases hplain
                · cases h2
        by_cases hempty : res'.isEmpty = true
        · rw [if_pos hempty]
          rintro r ⟨⟩
          exact List.nodup_nil
        · rw [if_neg hempty]
          exact ih (by omega) (some res') fun r hr => Option.some.inj hr ▸ hres'

theorem lengths_nodup {s : PathSet} (h : s.paths.Nodup) {lengthIndex : List (List Path)}
    (hsub : lengthIndex.Sublist s.lengthIndex) : lengthIndex.flatten.Nodup := by
  have hat : ∀ i (hi : i < s.lengthIndex.length),
      s.lengthIndex[i] = s.paths.filter (fun p => p.length = i) := by
    intro i hi
    rw [← s.byLength, indexed, List.getElem?_eq_getElem hi]
    rfl
  rw [List.nodup_flatten]
  constructor
  · intro a ha
    obtain ⟨i, hi, rfl⟩ := List.getElem_of_mem (hsub.subset ha)
    rw [hat]
    exact h.filter _
  · refine List.Pairwise.sublist hsub ?_
    rw [List.pairwise_iff_getElem]
    intro i j hi hj hlt p hpi hpj
    rw [hat, List.mem_filter, decide_eq_true_eq] at hpi hpj
    omega

theorem find_nodup {s : PathSet} (h : s.paths.Nodup) (path : Path) (superset subset : Bool)
    (depth : Nat) : (s.find path superset subset depth).Nodup := by
  rw [find]
  split
  · split
    · exact List.nodup_singleton path
    · exact List.nodup_nil
  · extract_lets lengthIndex
    split
    · exact List.nodup_nil
    · cases hres : s.narrow path superset subset path.length none with
      | none =>
          exact lengths_nodup h ((List.drop_sublist _ _).trans (List.take_sublist _ _))
      | some res =>
          have hnodup := narrow_nodup h path.length le_rfl none (fun r hr => nomatch hr) res hres
          exact hnodup.filter _

/-- A search finds what a walk over all added paths would pick out. -/
theorem find_addAll (added : List Path) {path : Path} (superset subset : Bool)
    (depth : Nat) (hlength : path.length ≤ 32) :
    ((addAll added).find path superset subset depth).Nodup
    ∧ ∀ q, q ∈ (addAll added).find path superset subset depth
      ↔ q ∈ added ∧ path.length ≤ q.length ∧ q.length ≤ depth ∧ ∀ i < path.length,
        q[i]? = path[i]? ∨ (superset = true ∧ q[i]? = some star)
          ∨ (subset = true ∧ path[i]? = some star) := by
  refine ⟨find_nodup (addAll_nodup added) path superset subset depth, fun q => ?_⟩
  rw [mem_find, mem_addAll]
  refine and_congr_right' (and_congr_right' (and_congr_right' (forall₂_congr fun i hi => ?_)))
  have hat : path[i]? = some (path.getD i []) := by
    rw [List.getD_eq_getElem?_getD, List.getElem?_eq_getElem hi]
    rfl
  rw [Agrees, Path.test_wildcard_iff hlength hi, ← Bool.not_eq_true,
    Path.test_wildcard_iff hlength hi, ← hat]
  constructor
  · rintro (⟨hstar, hsub⟩ | heq | ⟨hsup, -, hstar⟩)
    · exact Or.inr (Or.inr ⟨hsub, hstar⟩)
    · exact Or.inl heq
    · exact Or.inr (Or.inl ⟨hsup, hstar⟩)
  · rintro (heq | ⟨hsup, hstar⟩ | ⟨hsub, hstar⟩)
    · exact Or.inr (Or.inl heq)
    · by_cases hpath : path[i]? = some star
      · exact Or.inr (Or.inl (hstar.trans hpath.symm))
      · exact Or.inr (Or.inr ⟨hsup, hpath, hstar⟩)
    · exact Or.inl ⟨hstar, hsub⟩

/-- Patterns on both sides. -/
theorem find_addAll_patterns :
    let added := [[js "a", star], [js "a", js "b"], [star, js "b"], [js "c", js "b"]]
    ((addAll added).find [js "a", star] true true 2).Nodup
    ∧ ∀ q, q ∈ (addAll added).find [js "a", star] true true 2
      ↔ q ∈ added ∧ 2 ≤ q.length ∧ q.length ≤ 2 ∧ ∀ i < 2,
        q[i]? = [js "a", star][i]? ∨ (true = true ∧ q[i]? = some star)
          ∨ (true = true ∧ [js "a", star][i]? = some star) :=
  find_addAll _ true true 2 (by decide)

end PathSet

end GenieAcs
