import Mathlib.Data.List.Forall2
import Mathlib.Tactic.Common

/-!
# Regular expressions without alternatives

The regular expressions that are a row of units, dots, runs of dots and anchors.
Dialects differ in what a dot takes and in what counts as the end of a text.
`Test` is the search for a match anywhere in a text; anchored at both ends or at
one it is about the text without what is before and after (`test_anchored`).

`parse` reads the source text of such an expression, given as code units.
-/

namespace GenieAcs

namespace RegExp

inductive Item (α : Type)
  | start
  | stop
  | any
  | many
  | unit (a : α)
  deriving DecidableEq

/-- What a dot takes, and what may follow the end. -/
structure Dialect (α : Type) where
  dot : List α → Prop
  atEnd : List α → Prop

variable {α : Type} {D : Dialect α} {a : α} {body : List (Item α)} {s u v : List α}

/-- A match at a position, with what is left of the text; `first` at the start. -/
def MatchesAt (D : Dialect α) : Bool → List (Item α) → List α → Prop
  | _, [], _ => True
  | first, .start :: r, s => first = true ∧ MatchesAt D first r s
  | first, .stop :: r, s => D.atEnd s ∧ MatchesAt D first r s
  | first, .any :: r, s => ∃ u t, D.dot u ∧ s = u ++ t ∧ MatchesAt D (first && u.isEmpty) r t
  | first, .many :: r, s => ∃ (us : List (List α)) (t : List α), (∀ u ∈ us, D.dot u)
      ∧ s = us.flatten ++ t ∧ MatchesAt D (first && us.flatten.isEmpty) r t
  | _, .unit a :: r, s => ∃ t, s = a :: t ∧ MatchesAt D false r t

/-- `test`: there is a match at some position. -/
def Test (D : Dialect α) (r : List (Item α)) (s : List α) : Prop :=
  ∃ before t, s = before ++ t ∧ MatchesAt D before.isEmpty r t

/-- The texts that items other than anchors take. -/
def Takes (D : Dialect α) : List (Item α) → List α → Prop
  | [], s => s = []
  | .start :: _, _ => False
  | .stop :: _, _ => False
  | .any :: r, s => ∃ u t, D.dot u ∧ s = u ++ t ∧ Takes D r t
  | .many :: r, s => ∃ (us : List (List α)) (t : List α), (∀ u ∈ us, D.dot u)
      ∧ s = us.flatten ++ t ∧ Takes D r t
  | .unit a :: r, s => ∃ t, s = a :: t ∧ Takes D r t

/-! ## Anchors -/

def Anchor (i : Item α) : Prop := i = .start ∨ i = .stop

theorem isEmpty_append (u v : List α) : (u ++ v).isEmpty = (u.isEmpty && v.isEmpty) := by
  cases u <;> rfl

theorem matchesAt_append (hbody : ∀ i ∈ body, ¬ Anchor i) (r : List (Item α)) :
    ∀ (first : Bool) (s : List α), MatchesAt D first (body ++ r) s
      ↔ ∃ u t, s = u ++ t ∧ Takes D body u ∧ MatchesAt D (first && u.isEmpty) r t := by
  induction body with
  | nil =>
      intro first s
      constructor
      · exact fun h => ⟨[], s, rfl, rfl, by simpa using h⟩
      · rintro ⟨u, t, rfl, rfl, h⟩
        simpa using h
  | cons i body ih =>
      obtain ⟨hi, hrest⟩ := List.forall_mem_cons.mp hbody
      have ih := ih hrest
      intro first s
      rw [List.cons_append]
      cases i with
      | start => exact absurd (Or.inl rfl) hi
      | stop => exact absurd (Or.inr rfl) hi
      | any =>
          constructor
          · rintro ⟨x, t, hdot, rfl, h⟩
            obtain ⟨u, t, rfl, hu, h⟩ := (ih _ _).mp h
            refine ⟨x ++ u, t, (List.append_assoc ..).symm, ⟨x, u, hdot, rfl, hu⟩, ?_⟩
            rwa [Bool.and_assoc, ← isEmpty_append] at h
          · rintro ⟨_, t, rfl, ⟨x, u, hdot, rfl, hu⟩, h⟩
            rw [isEmpty_append, ← Bool.and_assoc] at h
            exact ⟨x, u ++ t, hdot, List.append_assoc .., (ih _ _).mpr ⟨u, t, rfl, hu, h⟩⟩
      | many =>
          constructor
          · rintro ⟨us, t, hdot, rfl, h⟩
            obtain ⟨u, t, rfl, hu, h⟩ := (ih _ _).mp h
            refine ⟨us.flatten ++ u, t, (List.append_assoc ..).symm, ⟨us, u, hdot, rfl, hu⟩, ?_⟩
            rwa [Bool.and_assoc, ← isEmpty_append] at h
          · rintro ⟨_, t, rfl, ⟨us, u, hdot, rfl, hu⟩, h⟩
            rw [isEmpty_append, ← Bool.and_assoc] at h
            exact ⟨us, u ++ t, hdot, List.append_assoc .., (ih _ _).mpr ⟨u, t, rfl, hu, h⟩⟩
      | unit a =>
          constructor
          · rintro ⟨t, rfl, h⟩
            obtain ⟨u, t, rfl, hu, h⟩ := (ih _ _).mp h
            exact ⟨a :: u, t, rfl, ⟨u, rfl, hu⟩, by simpa using h⟩
          · rintro ⟨_, t, rfl, ⟨u, rfl, hu⟩, h⟩
            exact ⟨u ++ t, rfl, (ih _ _).mpr ⟨u, t, rfl, hu, by simpa using h⟩⟩

/-- Items with an anchor in front and one behind, where there is one. -/
def anchored (front back : Bool) (body : List (Item α)) : List (Item α) :=
  (if front then [.start] else []) ++ (body ++ if back then [.stop] else [])

theorem test_anchored (hbody : ∀ i ∈ body, ¬ Anchor i) (front back : Bool) :
    Test D (anchored front back body) s ↔ ∃ before u after, s = before ++ (u ++ after)
      ∧ Takes D body u ∧ (front = true → before = []) ∧ (back = true → D.atEnd after) := by
  have hback : ∀ (first : Bool) (t : List α),
      MatchesAt D first (if back then [.stop] else []) t ↔ (back = true → D.atEnd t) := by
    intro first t
    cases back <;> simp [MatchesAt]
  have hfront : ∀ (first : Bool) (t : List α) (r : List (Item α)),
      MatchesAt D first ((if front then [.start] else []) ++ r) t
        ↔ (front = true → first = true) ∧ MatchesAt D first r t := by
    intro first t r
    cases front <;> simp [MatchesAt]
  unfold Test anchored
  constructor
  · rintro ⟨before, t, rfl, h⟩
    obtain ⟨hfirst, h⟩ := (hfront _ _ _).mp h
    obtain ⟨u, after, rfl, hu, h⟩ := (matchesAt_append hbody _ _ _).mp h
    exact ⟨before, u, after, rfl, hu, fun hf => List.isEmpty_iff.mp (hfirst hf),
      (hback _ _).mp h⟩
  · rintro ⟨before, u, after, rfl, hu, hfirst, hafter⟩
    refine ⟨before, u ++ after, rfl, (hfront _ _ _).mpr ⟨?_, ?_⟩⟩
    · exact fun hf => List.isEmpty_iff.mpr (hfirst hf)
    · exact (matchesAt_append hbody _ _ _).mpr ⟨u, after, rfl, hu, (hback _ _).mpr hafter⟩

/-! ## What is taken -/

theorem takes_units (w : List α) : Takes D (w.map .unit) s ↔ s = w := by
  induction w generalizing s with
  | nil => exact Iff.rfl
  | cons a w ih =>
      constructor
      · rintro ⟨t, rfl, h⟩
        rw [ih.mp h]
      · rintro rfl
        exact ⟨w, rfl, ih.mpr rfl⟩

/-- The texts of a single unit that an item takes. -/
def Item.Accepts (D : Dialect α) : Item α → α → Prop
  | .any, b => D.dot [b]
  | .unit a, b => a = b
  | _, _ => False

/-- What the other items take, with the runs left out. -/
theorem takes_sublist [DecidableEq α] (hdot : ∀ x, D.dot x → ∃ b, x = [b]) :
    ∀ {body : List (Item α)} {u : List α}, Takes D body u →
      ∃ v, List.Forall₂ (Item.Accepts D) (body.filter (· ≠ .many)) v ∧ v.Sublist u := by
  intro body
  induction body with
  | nil =>
      rintro u rfl
      exact ⟨[], .nil, .slnil⟩
  | cons i body ih =>
      intro u h
      cases i with
      | start => exact h.elim
      | stop => exact h.elim
      | any =>
          obtain ⟨x, t, hx, rfl, h⟩ := h
          obtain ⟨b, rfl⟩ := hdot x hx
          obtain ⟨v, hv, hsub⟩ := ih h
          exact ⟨b :: v, .cons hx hv, hsub.cons_cons b⟩
      | many =>
          obtain ⟨us, t, -, rfl, h⟩ := h
          obtain ⟨v, hv, hsub⟩ := ih h
          exact ⟨v, hv, hsub.trans (List.sublist_append_right ..)⟩
      | unit a =>
          obtain ⟨t, rfl, h⟩ := h
          obtain ⟨v, hv, hsub⟩ := ih h
          exact ⟨a :: v, .cons rfl hv, hsub.cons_cons a⟩

/-- A unit that no dot takes is there as often as the items name it. -/
theorem takes_count [DecidableEq α] {w : α} (hdot : ∀ x, D.dot x → w ∉ x) :
    ∀ {body : List (Item α)} {u : List α}, Takes D body u →
      u.count w = body.count (.unit w) := by
  intro body
  induction body with
  | nil =>
      rintro u rfl
      rfl
  | cons i body ih =>
      intro u h
      cases i with
      | start => exact h.elim
      | stop => exact h.elim
      | any =>
          obtain ⟨x, t, hx, rfl, h⟩ := h
          have hne : Item.any ≠ .unit w := fun heq => nomatch heq
          rw [List.count_append, List.count_eq_zero_of_not_mem (hdot x hx), ih h,
            List.count_cons_of_ne hne, Nat.zero_add]
      | many =>
          obtain ⟨us, t, hus, rfl, h⟩ := h
          have hnone : w ∉ us.flatten := fun hw =>
            have ⟨x, hx, hwx⟩ := List.mem_flatten.mp hw
            hdot x (hus x hx) hwx
          have hne : Item.many ≠ .unit w := fun heq => nomatch heq
          rw [List.count_append, List.count_eq_zero_of_not_mem hnone, ih h,
            List.count_cons_of_ne hne, Nat.zero_add]
      | unit a =>
          obtain ⟨t, rfl, h⟩ := h
          rw [List.count_cons, List.count_cons, ih h]
          congr 1
          by_cases ha : a = w
          · rw [if_pos (beq_iff_eq.mpr ha), if_pos (beq_iff_eq.mpr (congrArg _ ha))]
          · rw [if_neg (mt beq_iff_eq.mp ha), if_neg (mt beq_iff_eq.mp (mt Item.unit.inj ha))]

/-! ## Source texts -/

/-- The characters that stand for themselves behind a backslash. -/
def punctuation : List Nat := "^$\\.*+?()[]|/-\x7b\x7d".toList.map Char.toNat

/-- The syntax without classes, groups, alternatives and counts. -/
def parse : List Nat → Option (List (Item Nat))
  | [] => some []
  | c :: cs =>
      if c = '\\'.toNat then
        match cs with
        | [] => none
        | d :: cs => if d ∈ punctuation then (parse cs).map (.unit d :: ·) else none
      else if c = '.'.toNat then
        match cs with
        | [] => some [.any]
        | d :: cs =>
            if d = '*'.toNat then (parse cs).map (.many :: ·)
            else (parse (d :: cs)).map (.any :: ·)
      else if c = '^'.toNat then (parse cs).map (.start :: ·)
      else if c = '$'.toNat then (parse cs).map (.stop :: ·)
      else if c ∈ "*+?()[]|\x7b\x7d".toList.map Char.toNat then none
      else (parse cs).map (.unit c :: ·)

theorem parse_start (cs : List Nat) :
    parse ('^'.toNat :: cs) = (parse cs).map (.start :: ·) := by
  rw [parse.eq_def]
  rfl

/-- A character without a meaning of its own. -/
theorem parse_unit {c : Nat} (cs : List Nat)
    (hc : c ∉ "\\.^$*+?()[]|\x7b\x7d".toList.map Char.toNat) :
    parse (c :: cs) = (parse cs).map (.unit c :: ·) := by
  have hsplit : "\\.^$*+?()[]|\x7b\x7d".toList.map Char.toNat
      = ['\\'.toNat, '.'.toNat, '^'.toNat, '$'.toNat]
        ++ "*+?()[]|\x7b\x7d".toList.map Char.toNat := rfl
  rw [hsplit, List.mem_append, not_or] at hc
  obtain ⟨hown, hmeta⟩ := hc
  simp only [List.mem_cons, List.not_mem_nil, or_false, not_or] at hown
  obtain ⟨hbackslash, hdot, hstart, hstop⟩ := hown
  rw [parse.eq_def]
  simp only
  rw [if_neg hbackslash, if_neg hdot, if_neg hstart, if_neg hstop, if_neg hmeta]

/-- The expression of a source text finds a match in a text. -/
def Finds (D : Dialect Nat) (source s : List Nat) : Prop :=
  ∃ items, parse source = some items ∧ Test D items s

theorem finds_iff {D : Dialect Nat} {source s : List Nat} {items : List (Item Nat)}
    (h : parse source = some items) : Finds D source s ↔ Test D items s := by
  constructor
  · rintro ⟨items', h', htest⟩
    cases h.symm.trans h'
    exact htest
  · exact fun htest => ⟨items, h, htest⟩

end RegExp

end GenieAcs
