import Mathlib.Data.List.Forall2
import Mathlib.Order.Nat
import Mathlib.Tactic.Common

/-!
# Rows of quantified atoms

A regular expression that is a row of anchors and of quantified atoms, and the
search for it in a text. An expression that is found anywhere is also found in a
text of the least length its quantifiers allow (`Test.shrink`). Atoms that are
taken once, with runs of dots between them, are found in any text that has a
unit for each of the atoms (`Spread.fill`).
-/

namespace GenieAcs

namespace Quantified

inductive Atom (α : Type)
  | unit (a : α)
  | any

inductive Piece (α : Type)
  | start
  | stop
  | rep (a : Atom α) (low : ℕ) (high : Option ℕ)

/-- An atom without a quantifier. -/
def Piece.one {α : Type} (a : Atom α) : Piece α := .rep a 1 (some 1)

/-- A dot with a star. -/
def Piece.run {α : Type} : Piece α := .rep .any 0 none

variable {α : Type} {dot : α → Prop} {a : Atom α} {r qs : List (Piece α)} {s t u w : List α}
  {first first' : Bool}

def Atom.Accepts (dot : α → Prop) : Atom α → α → Prop
  | .unit a, c => c = a
  | .any, c => dot c

/-- A match at the front of a text; `first` at the start of the whole text. -/
def MatchesAt (dot : α → Prop) : Bool → List (Piece α) → List α → Prop
  | _, [], _ => True
  | first, .start :: r, s => first = true ∧ MatchesAt dot first r s
  | first, .stop :: r, s => s = [] ∧ MatchesAt dot first r s
  | first, .rep a low high :: r, s => ∃ u t, s = u ++ t ∧ (∀ c ∈ u, a.Accepts dot c)
      ∧ low ≤ u.length ∧ (∀ m ∈ high, u.length ≤ m) ∧ MatchesAt dot (first && u.isEmpty) r t

/-- `test`. -/
def Test (dot : α → Prop) (r : List (Piece α)) (s : List α) : Prop :=
  ∃ before t, s = before ++ t ∧ MatchesAt dot before.isEmpty r t

/-- The least number of units that is taken. -/
def least : List (Piece α) → ℕ
  | [] => 0
  | .rep _ low _ :: r => low + least r
  | _ :: r => least r

theorem least_append (q r : List (Piece α)) : least (q ++ r) = least q + least r := by
  induction q with
  | nil => exact (Nat.zero_add _).symm
  | cons p q ih =>
      cases p with
      | rep a low high => rw [List.cons_append, least, least, ih, Nat.add_assoc]
      | start => exact ih
      | stop => exact ih

theorem isEmpty_of_length_le {u w : List α} (h : u.length ≤ w.length) (hw : w.isEmpty = true) :
    u.isEmpty = true := by
  rw [List.isEmpty_iff] at hw ⊢
  rw [hw] at h
  exact List.length_eq_zero_iff.mp (Nat.le_zero.mp h)

/-- Every quantifier takes as little as it can. -/
theorem MatchesAt.shrink (h : MatchesAt dot first r s) (hfirst : first = true → first' = true) :
    ∃ u, u.length = least r ∧ u.length ≤ s.length ∧ MatchesAt dot first' r u := by
  induction r generalizing first first' s with
  | nil => exact ⟨[], rfl, Nat.zero_le _, trivial⟩
  | cons p r ih =>
      cases p with
      | start =>
          obtain ⟨u, hlen, hle, hu⟩ := ih h.2 hfirst
          exact ⟨u, hlen, hle, hfirst h.1, hu⟩
      | stop =>
          obtain ⟨hs, h⟩ := h
          obtain ⟨u, hlen, hle, hu⟩ := ih h hfirst
          rw [hs, List.length_nil, Nat.le_zero, List.length_eq_zero_iff] at hle
          exact ⟨u, hlen, by rw [hle]; exact Nat.zero_le _, hle, hu⟩
      | rep a low high =>
          obtain ⟨w, t, rfl, hw, hlow, hhigh, h⟩ := h
          have htake : (w.take low).length = low := by
            rw [List.length_take, Nat.min_eq_left hlow]
          have hempty : (first && w.isEmpty) = true → (first' && (w.take low).isEmpty) = true := by
            intro hf
            obtain ⟨hf, hw⟩ := Bool.and_eq_true_iff.mp hf
            exact Bool.and_eq_true_iff.mpr ⟨hfirst hf,
              isEmpty_of_length_le (htake.le.trans hlow) hw⟩
          obtain ⟨u, hlen, hle, hu⟩ := ih h hempty
          refine ⟨w.take low ++ u, ?_, ?_, w.take low, u, rfl,
            fun c hc => hw c (List.mem_of_mem_take hc), htake.ge,
            fun m hm => (htake.le.trans hlow).trans (hhigh m hm), hu⟩
          · rw [List.length_append, htake, hlen]
            rfl
          · rw [List.length_append, List.length_append, htake]
            exact Nat.add_le_add hlow hle

theorem Test.shrink (h : Test dot r s) : ∃ u, u.length = least r ∧ Test dot r u := by
  obtain ⟨before, t, rfl, h⟩ := h
  obtain ⟨u, hlen, -, hu⟩ := h.shrink fun _ => rfl
  exact ⟨u, hlen, [], u, rfl, hu⟩

/-! ## Atoms that are taken once -/

/-- Atoms without quantifiers, with runs between them. -/
inductive Spread : List (Piece α) → List (Atom α) → Prop
  | nil : Spread [] []
  | one {qs as} (a : Atom α) : Spread qs as → Spread (.one a :: qs) (a :: as)
  | run {qs as} : Spread qs as → Spread (.run :: qs) as

theorem Spread.least {as : List (Atom α)} (h : Spread qs as) : least qs = as.length := by
  induction h with
  | nil => rfl
  | one a _ ih =>
      rw [Piece.one, Quantified.least, ih, List.length_cons, Nat.add_comm]
  | run _ ih => rw [Piece.run, Quantified.least, ih, Nat.zero_add]

/-- A unit for each atom, and nothing for the runs. -/
theorem Spread.fill {as : List (Atom α)} (h : Spread qs as)
    (hu : List.Forall₂ (Atom.Accepts dot) as u) (hr : MatchesAt dot (first && u.isEmpty) r t) :
    MatchesAt dot first (qs ++ r) (u ++ t) := by
  induction h generalizing first u with
  | nil =>
      cases hu
      simpa using hr
  | one a _ ih =>
      cases hu with
      | @cons _ c _ u hc hu =>
          refine ⟨[c], u ++ t, rfl, List.forall_mem_singleton.mpr hc, le_rfl, ?_, ih hu ?_⟩
          · rintro m ⟨⟩
            exact le_rfl
          · simpa using hr
  | run _ ih =>
      refine ⟨[], u ++ t, rfl, fun _ h => (List.not_mem_nil h).elim, le_rfl,
        (fun _ h => nomatch h), ih hu ?_⟩
      simpa using hr

theorem matchesAt_unit (c : α) : MatchesAt dot first (.one (.unit c) :: r) s
    ↔ ∃ t, s = c :: t ∧ MatchesAt dot false r t := by
  constructor
  · rintro ⟨u, t, rfl, hu, hlow, hhigh, h⟩
    obtain ⟨d, rfl⟩ := List.length_eq_one_iff.mp (le_antisymm (hhigh 1 rfl) hlow)
    obtain rfl : d = c := hu d List.mem_cons_self
    exact ⟨t, rfl, by simpa using h⟩
  · rintro ⟨t, rfl, h⟩
    refine ⟨[c], t, rfl, List.forall_mem_singleton.mpr rfl, le_rfl, ?_, by simpa using h⟩
    rintro m ⟨⟩
    exact le_rfl

/-- Units in a row are taken as they stand. -/
theorem matchesAt_units : MatchesAt dot first (w.map (fun c => .one (.unit c)) ++ r) s
    ↔ ∃ t, s = w ++ t ∧ MatchesAt dot (first && w.isEmpty) r t := by
  induction w generalizing first s with
  | nil => simp
  | cons c w ih =>
      rw [List.map_cons, List.cons_append, matchesAt_unit]
      constructor
      · rintro ⟨t, rfl, h⟩
        obtain ⟨t', rfl, h'⟩ := ih.mp h
        exact ⟨t', rfl, by simpa using h'⟩
      · rintro ⟨t, rfl, h⟩
        exact ⟨w ++ t, rfl, ih.mpr ⟨t, rfl, by simpa using h⟩⟩

theorem matchesAt_run : MatchesAt dot first (.run :: r) s
    ↔ ∃ u t, s = u ++ t ∧ (∀ c ∈ u, dot c) ∧ MatchesAt dot (first && u.isEmpty) r t := by
  constructor
  · rintro ⟨u, t, rfl, hu, -, -, h⟩
    exact ⟨u, t, rfl, hu, h⟩
  · rintro ⟨u, t, rfl, hu, h⟩
    exact ⟨u, t, rfl, hu, Nat.zero_le _, (fun _ h => nomatch h), h⟩

/-! ## Anchors around a row -/

theorem matchesAt_front (front : Bool) :
    MatchesAt dot first ((if front then [.start] else []) ++ r) s
      ↔ (front = true → first = true) ∧ MatchesAt dot first r s := by
  cases front <;> simp [MatchesAt]

theorem matchesAt_back (back : Bool) :
    MatchesAt dot first (if back then [.stop] else []) s ↔ (back = true → s = []) := by
  cases back <;> simp [MatchesAt]

end Quantified

end GenieAcs
