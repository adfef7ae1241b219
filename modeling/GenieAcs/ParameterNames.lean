import Mathlib.Data.List.Lex
import Mathlib.Data.List.Sort
import GenieAcs.PathSet

/-!
# The parameters of a GetParameterNames response

A CPE may leave out objects when it lists its parameters. The list is sorted, so
that objects come before what is below them, and the parents that are missing
between two neighbours are put in between them. Neighbours are compared segment
by segment from the end, and the first segment they share at one place is taken
for the end of their common beginning.
-/

namespace GenieAcs

/-- An element of `parameterList`. -/
structure ParameterName where
  path : Path
  object : Bool
  writable : Bool
  deriving DecidableEq

namespace ParameterName

/-! ## Sorting -/

/-- The comparison that the list is sorted by. -/
def comparePaths : Path → Path → Int
  | f :: fs, g :: gs => if g < f then 1 else if f < g then -1 else comparePaths fs gs
  | pa, pb => pa.length - pb.length

theorem cons_le_cons {f g : JsString} {fs gs : Path} :
    f :: fs ≤ g :: gs ↔ f < g ∨ f = g ∧ fs ≤ gs := by
  rw [← not_lt, ← not_lt]
  constructor
  · intro h
    rcases lt_trichotomy f g with hlt | rfl | hgt
    · exact Or.inl hlt
    · exact Or.inr ⟨rfl, fun hlt => h (List.Lex.cons hlt)⟩
    · exact absurd (List.Lex.rel hgt) h
  · rintro (hlt | ⟨rfl, hle⟩) h
    · rcases List.cons_lt_cons_iff.mp h with hgt | ⟨rfl, -⟩
      · exact lt_asymm hlt hgt
      · exact lt_irrefl _ hlt
    · rcases List.cons_lt_cons_iff.mp h with hgt | ⟨-, hlt⟩
      · exact lt_irrefl _ hgt
      · exact hle hlt

theorem nil_le (p : Path) : [] ≤ p := by
  rw [← not_lt]
  exact fun h => nomatch h

theorem comparePaths_iff (p q : Path) : comparePaths p q ≤ 0 ↔ p ≤ q := by
  induction p generalizing q with
  | nil =>
      refine iff_of_true ?_ (nil_le q)
      cases q with
      | nil => exact le_refl 0
      | cons g gs =>
          show ((0 : Nat) : Int) - ((gs.length + 1 : Nat) : Int) ≤ 0
          omega
  | cons f fs ih =>
      cases q with
      | nil =>
          refine iff_of_false ?_ (not_le.mpr (List.Lex.nil : [] < f :: fs))
          show ¬ ((fs.length + 1 : Nat) : Int) - ((0 : Nat) : Int) ≤ 0
          omega
      | cons g gs =>
          rw [comparePaths, cons_le_cons]
          split_ifs with h1 h2
          · refine iff_of_false (by omega) ?_
            rintro (hlt | ⟨rfl, -⟩)
            · exact lt_asymm h1 hlt
            · exact lt_irrefl _ h1
          · exact iff_of_true (by omega) (Or.inl h2)
          · obtain rfl : f = g := le_antisymm (not_lt.mp h1) (not_lt.mp h2)
            rw [ih]
            exact ⟨fun h => Or.inr ⟨rfl, h⟩, fun h => (h.resolve_left (lt_irrefl f)).2⟩

/-- What lies between a path and one below it is below it too. -/
theorem prefix_of_between {p q s : Path} (h : p ≤ q) (h' : q ≤ p ++ s) : p <+: q := by
  induction p generalizing q with
  | nil => exact List.nil_prefix
  | cons f fs ih =>
      cases q with
      | nil => exact absurd h (not_le.mpr (List.Lex.nil : [] < f :: fs))
      | cons g gs =>
          rcases cons_le_cons.mp h with hlt | ⟨rfl, hle⟩
          · rcases cons_le_cons.mp h' with hgt | ⟨rfl, -⟩
            · exact absurd hgt (lt_asymm hlt)
            · exact absurd hlt (lt_irrefl _)
          · have hle' := ((cons_le_cons.mp h').resolve_left (lt_irrefl f)).2
            exact List.cons_prefix_cons.mpr ⟨rfl, ih hle hle'⟩

theorem take_le (p : Path) (n : Nat) : p.take n ≤ p := by
  induction p generalizing n with
  | nil => rw [List.take_nil]
  | cons f fs ih =>
      cases n with
      | zero => exact nil_le _
      | succ n => exact cons_le_cons.mpr (Or.inr ⟨rfl, ih n⟩)

theorem take_lt {p : Path} {n : Nat} (h : n < p.length) : p.take n < p := by
  refine lt_of_le_of_ne (take_le p n) fun heq => ?_
  have hlen := congrArg List.length heq
  rw [List.length_take] at hlen
  omega

/-- An element may stand before another. -/
def Ordered (e f : ParameterName) : Prop := comparePaths e.path f.path ≤ 0

instance : DecidableRel Ordered := fun e f =>
  inferInstanceAs (Decidable (comparePaths e.path f.path ≤ 0))

def sortNames (list : List ParameterName) : List ParameterName := list.insertionSort Ordered

instance : Std.Total Ordered :=
  ⟨fun _ _ => by
    rw [Ordered, Ordered, comparePaths_iff, comparePaths_iff]
    exact le_total _ _⟩

instance : IsTrans ParameterName Ordered :=
  ⟨fun _ _ _ h h' => by
    rw [Ordered, comparePaths_iff] at h h' ⊢
    exact h.trans h'⟩

theorem sortNames_sorted (list : List ParameterName) :
    (sortNames list).Pairwise fun e f => e.path ≤ f.path :=
  (List.pairwise_insertionSort Ordered list).imp fun h => (comparePaths_iff _ _).mp h

theorem mem_sortNames {list : List ParameterName} {e : ParameterName} :
    e ∈ sortNames list ↔ e ∈ list := List.mem_insertionSort Ordered

/-- The elements of one path stay in their order. -/
theorem sortNames_filter (list : List ParameterName) (p : Path) :
    (sortNames list).filter (fun e => e.path = p) = list.filter (fun e => e.path = p) := by
  have hsame : (list.filter fun e => e.path = p).Pairwise Ordered := by
    refine List.pairwise_of_forall_mem_list fun e he f hf => ?_
    have hpath : e.path = f.path :=
      (of_decide_eq_true (List.mem_filter.mp he).2).trans
        (of_decide_eq_true (List.mem_filter.mp hf).2).symm
    rw [Ordered, comparePaths_iff, hpath]
  have hsub := (List.sublist_insertionSort hsame List.filter_sublist).filter (fun e => e.path = p)
  rw [List.filter_filter] at hsub
  simp only [Bool.and_self] at hsub
  exact (hsub.eq_of_length
    ((List.perm_insertionSort Ordered list).filter _).length_eq.symm).symm

/-! ## Filling in -/

/-- The comparison of an element's path with that of its predecessor, for the
first places of it: the elements that are put in before it, and whether the
predecessor is found to be an object. -/
def missing (prev cur : Path) : Nat → List ParameterName × Bool
  | 0 => ([], false)
  | i + 1 =>
      if i < prev.length ∧ prev[i]? = cur[i]? then ([], decide (i = prev.length - 1))
      else
        let (added, object) := missing prev cur i
        (added ++ [⟨cur.take (i + 1), true, true⟩], object)

/-- The loop over the sorted list. -/
def fill : List ParameterName → List ParameterName
  | e :: f :: rest =>
      let (added, object) := missing e.path f.path (f.path.length - 1)
      (if object then { e with object := true } else e) :: (added ++ fill (f :: rest))
  | list => list

/-- The list that the rest of `rpcResponse` goes through. -/
def filledNames (list : List ParameterName) : List ParameterName := fill (sortNames list)

/-- Where two paths have the same segment they have the same beginning. -/
def Parts (e f : ParameterName) : Prop :=
  ∀ i, i + 1 < f.path.length → i < e.path.length → e.path[i]? = f.path[i]? →
    e.path.take (i + 1) = f.path.take (i + 1)

/-- Where the comparison with the predecessor ends. -/
structure Stops (prev cur : Path) (n k : Nat) (object : Bool) : Prop where
  le : k ≤ n
  apart : ∀ i, k ≤ i → i < n → i < prev.length → prev[i]? ≠ cur[i]?
  meets : k = 0 ∨ k ≤ prev.length ∧ prev[k - 1]? = cur[k - 1]?
  object : object = true ↔ 0 < k ∧ k = prev.length

theorem missing_spec (prev cur : Path) (n : Nat) : ∃ k, Stops prev cur n k (missing prev cur n).2
    ∧ (missing prev cur n).1
      = (List.range (n - k)).map fun j => ⟨cur.take (k + 1 + j), true, true⟩ := by
  induction n with
  | zero => exact ⟨0, ⟨le_rfl, fun i _ hi => absurd hi (Nat.not_lt_zero i), Or.inl rfl, by simp [missing]⟩, rfl⟩
  | succ n ih =>
      by_cases h : n < prev.length ∧ prev[n]? = cur[n]?
      · refine ⟨n + 1, ⟨le_rfl, fun i hi hi' => by omega, Or.inr ⟨h.1, h.2⟩, ?_⟩, ?_⟩
        · rw [missing, if_pos h, decide_eq_true_eq]
          omega
        · rw [missing, if_pos h, Nat.sub_self]
          rfl
      · obtain ⟨k, ⟨hle, hapart, hmeets, hobject⟩, hadded⟩ := ih
        refine ⟨k, ⟨by omega, fun i hi hi' hlt heq => ?_, hmeets, ?_⟩, ?_⟩
        · rcases Nat.lt_succ_iff_lt_or_eq.mp hi' with hlt' | rfl
          · exact hapart i hi hlt' hlt heq
          · exact h ⟨hlt, heq⟩
        · rw [missing, if_neg h]
          exact hobject
        · have hsub : n + 1 - k = n - k + 1 := by omega
          have hlast : k + 1 + (n - k) = n + 1 := by omega
          rw [missing, if_neg h, hsub, List.range_succ, List.map_append, List.map_singleton, hlast,
            ← hadded]

/-- What is put in between two neighbours lies between them. -/
theorem lt_take {prev cur : Path} {n k : Nat} {object : Bool} (h : Stops prev cur n k object)
    (hle : prev ≤ cur) (hn : n ≤ cur.length) {m : Nat} (hk : k < m) (hm : m ≤ n) : prev < cur.take m := by
  by_contra hnot
  have hprefix := prefix_of_between (s := cur.drop m) (not_lt.mp hnot)
    (by rw [List.take_append_drop]; exact hle)
  have hlen := hprefix.length_le
  rw [List.length_take, Nat.min_eq_left (hm.trans hn)] at hlen
  have htake : cur.take m = prev.take m := by
    rw [List.prefix_iff_eq_take.mp hprefix, List.length_take, Nat.min_eq_left (hm.trans hn)]
  refine h.apart (m - 1) (by omega) (by omega) (by omega) ?_
  rw [← List.getElem?_take_of_lt (show m - 1 < m by omega), ← htake,
    List.getElem?_take_of_lt (show m - 1 < m by omega)]

end ParameterName

end GenieAcs
