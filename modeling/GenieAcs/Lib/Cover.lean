import Mathlib.Data.List.Basic
import Mathlib.Tactic.Common

/-!
# Covers: sums of products of literals

A cube is a list of literals, all of which must hold; a cover is a list of
cubes, one of which must hold. `Cover.Sat` takes the meaning of a literal as
a parameter, so the same lemmas serve Boolean variables and any richer
interpretation of the literals.

A Boolean literal is a number: variable `l / 2`, positive when `l` is odd.
`Minimiser` is what two-level minimisers offer over such covers, and
`Minimiser.Exact` what they promise: the complement is exact, a minimised
cover lies between the on-set less the don't-care set and their union, and
no new variables appear. `naive` is a minimiser that keeps the promise
without minimising.
-/

namespace GenieAcs

namespace Cover

variable {L : Type*}

/-- All literals of the cube hold. -/
def CubeSat (sat : L → Prop) (m : List L) : Prop := ∀ l ∈ m, sat l

/-- Some cube of the cover holds. -/
def Sat (sat : L → Prop) (ms : List (List L)) : Prop := ∃ m ∈ ms, CubeSat sat m

variable {sat : L → Prop}

@[simp]
theorem cubeSat_nil : CubeSat sat [] := fun _ h => by cases h

@[simp]
theorem cubeSat_cons {l : L} {m : List L} :
    CubeSat sat (l :: m) ↔ sat l ∧ CubeSat sat m := List.forall_mem_cons

@[simp]
theorem cubeSat_append {m m' : List L} :
    CubeSat sat (m ++ m') ↔ CubeSat sat m ∧ CubeSat sat m' := List.forall_mem_append

@[simp]
theorem sat_nil : ¬ Sat sat [] := fun ⟨_, h, _⟩ => by cases h

@[simp]
theorem sat_cons {m : List L} {ms : List (List L)} :
    Sat sat (m :: ms) ↔ CubeSat sat m ∨ Sat sat ms := by
  simp [Sat]

@[simp]
theorem sat_append {ms ms' : List (List L)} :
    Sat sat (ms ++ ms') ↔ Sat sat ms ∨ Sat sat ms' := by
  simp [Sat, or_and_right, exists_or]

theorem sat_flatten {mss : List (List (List L))} :
    Sat sat mss.flatten ↔ ∃ ms ∈ mss, Sat sat ms := by
  constructor
  · rintro ⟨m, hm, hs⟩
    obtain ⟨ms, hms, hm⟩ := List.mem_flatten.mp hm
    exact ⟨ms, hms, m, hm, hs⟩
  · rintro ⟨ms, hms, m, hm, hs⟩
    exact ⟨m, List.mem_flatten.mpr ⟨ms, hms, hm⟩, hs⟩

theorem sat_flatMap {α : Type*} {f : α → List (List L)} {xs : List α} :
    Sat sat (xs.flatMap f) ↔ ∃ x ∈ xs, Sat sat (f x) := by
  rw [List.flatMap_def, sat_flatten]
  simp

/-- Two meanings that agree on the literals of a cover satisfy it alike. -/
theorem sat_congr {sat' : L → Prop} {ms : List (List L)}
    (h : ∀ m ∈ ms, ∀ l ∈ m, (sat l ↔ sat' l)) : Sat sat ms ↔ Sat sat' ms := by
  constructor
  · rintro ⟨m, hm, hs⟩
    exact ⟨m, hm, fun l hl => (h m hm l hl).mp (hs l hl)⟩
  · rintro ⟨m, hm, hs⟩
    exact ⟨m, hm, fun l hl => (h m hm l hl).mpr (hs l hl)⟩

/-! ## Boolean literals -/

/-- The literal `l` under a valuation of the variables. -/
def Holds (ν : Nat → Bool) (l : Nat) : Prop := ν (l / 2) = decide (l % 2 = 1)

instance (ν : Nat → Bool) (l : Nat) : Decidable (Holds ν l) := by
  unfold Holds; infer_instance

/-- The opposite literal. -/
def flip (l : Nat) : Nat := if l % 2 = 1 then l - 1 else l + 1

theorem flip_div (l : Nat) : flip l / 2 = l / 2 := by
  unfold flip; split <;> omega

theorem flip_mod (l : Nat) : flip l % 2 = 1 - l % 2 := by
  unfold flip; split <;> omega

theorem holds_flip {ν : Nat → Bool} {l : Nat} : Holds ν (flip l) ↔ ¬ Holds ν l := by
  unfold Holds
  rw [flip_div, flip_mod]
  rcases Nat.mod_two_eq_zero_or_one l with h | h <;> simp [h]

/-- The variables of a cover. -/
def vars (ms : List (List Nat)) : List Nat := ms.flatten.map (· / 2)

theorem mem_vars {ms : List (List Nat)} {x : Nat} :
    x ∈ vars ms ↔ ∃ m ∈ ms, ∃ l ∈ m, l / 2 = x := by
  simp [vars]

theorem vars_append (ms ms' : List (List Nat)) : vars (ms ++ ms') = vars ms ++ vars ms' := by
  simp [vars]

/-- A two-level minimiser; `C` are the hints that steer it. -/
structure Minimiser (C : Type*) where
  complement : List (List Nat) → List (List Nat)
  espresso : List (List Nat) → List (List Nat) → C → List (List Nat)
  tautology : List (List Nat) → Bool

/-- What a minimiser promises, whatever the hints. -/
structure Minimiser.Exact {C : Type*} (M : Minimiser C) : Prop where
  complement : ∀ ν ms, Sat (Holds ν) (M.complement ms) ↔ ¬ Sat (Holds ν) ms
  complement_vars : ∀ ms, vars (M.complement ms) ⊆ vars ms
  espresso_lower : ∀ ν on dc c, Sat (Holds ν) on → ¬ Sat (Holds ν) dc →
    Sat (Holds ν) (M.espresso on dc c)
  espresso_upper : ∀ ν on dc c, Sat (Holds ν) (M.espresso on dc c) →
    Sat (Holds ν) on ∨ Sat (Holds ν) dc
  espresso_vars : ∀ on dc c, vars (M.espresso on dc c) ⊆ vars on ++ vars dc
  tautology : ∀ ms, M.tautology ms = true ↔ ∀ ν, Sat (Holds ν) ms

/-- Outside the don't-care set a minimised cover is the on-set. -/
theorem Minimiser.Exact.espresso {C : Type*} {M : Minimiser C} (h : M.Exact) {ν : Nat → Bool}
    {on dc : List (List Nat)} (c : C) (hdc : ¬ Sat (Holds ν) dc) :
    Sat (Holds ν) (M.espresso on dc c) ↔ Sat (Holds ν) on :=
  ⟨fun hs => (h.espresso_upper ν on dc c hs).resolve_right hdc,
    fun hs => h.espresso_lower ν on dc c hs hdc⟩

/-! ## A minimiser that keeps the promise -/

/-- De Morgan, multiplied out. -/
def deMorgan : List (List Nat) → List (List Nat)
  | [] => [[]]
  | m :: ms => m.flatMap fun l => (deMorgan ms).map (flip l :: ·)

theorem sat_map_cons {l : Nat} {sat : Nat → Prop} {ms : List (List Nat)} :
    Sat sat (ms.map (l :: ·)) ↔ sat l ∧ Sat sat ms := by
  simp only [Sat, List.mem_map]
  constructor
  · rintro ⟨_, ⟨m, hm, rfl⟩, hs⟩
    exact ⟨(cubeSat_cons.mp hs).1, m, hm, (cubeSat_cons.mp hs).2⟩
  · rintro ⟨hl, m, hm, hs⟩
    exact ⟨l :: m, ⟨m, hm, rfl⟩, cubeSat_cons.mpr ⟨hl, hs⟩⟩

theorem sat_deMorgan {ν : Nat → Bool} {ms : List (List Nat)} :
    Sat (Holds ν) (deMorgan ms) ↔ ¬ Sat (Holds ν) ms := by
  induction ms with
  | nil => simp [deMorgan]
  | cons m ms ih =>
      rw [deMorgan, sat_flatMap, sat_cons, not_or, ← ih]
      simp only [sat_map_cons, holds_flip]
      constructor
      · rintro ⟨l, hl, hnot, hs⟩
        exact ⟨fun hm => hnot (hm l hl), hs⟩
      · rintro ⟨hm, hs⟩
        simp only [CubeSat, not_forall] at hm
        obtain ⟨l, hl, hnot⟩ := hm
        exact ⟨l, hl, hnot, hs⟩

theorem vars_deMorgan (ms : List (List Nat)) : vars (deMorgan ms) ⊆ vars ms := by
  induction ms with
  | nil => simp [deMorgan, vars]
  | cons m ms ih =>
      intro x hx
      obtain ⟨c, hc, l, hl, rfl⟩ := mem_vars.mp hx
      obtain ⟨l', hl', hc⟩ := List.mem_flatMap.mp hc
      obtain ⟨c', hc', rfl⟩ := List.mem_map.mp hc
      rcases List.mem_cons.mp hl with rfl | hl
      · exact mem_vars.mpr ⟨m, List.mem_cons_self .., l', hl', (flip_div l').symm⟩
      · obtain ⟨d, hd, k, hk, hkl⟩ := mem_vars.mp (ih (mem_vars.mpr ⟨c', hc', l, hl, rfl⟩))
        exact mem_vars.mpr ⟨d, List.mem_cons_of_mem _ hd, k, hk, hkl⟩

/-- The cube contains a literal and its opposite. -/
def contradictory (m : List Nat) : Bool := m.any fun l => decide (flip l ∈ m)

theorem cubeSat_of_not_contradictory {m : List Nat} (h : contradictory m = false) :
    CubeSat (Holds fun x => decide (2 * x + 1 ∈ m)) m := by
  intro l hl
  have hno : flip l ∉ m := by
    intro hf
    have : contradictory m = true := List.any_eq_true.mpr ⟨l, hl, by simpa using hf⟩
    rw [h] at this
    cases this
  unfold Holds
  rcases Nat.mod_two_eq_zero_or_one l with hmod | hmod
  · have hfl : flip l = 2 * (l / 2) + 1 := by unfold flip; split <;> omega
    rw [hfl] at hno
    simp [hmod, hno]
  · have hle : 2 * (l / 2) + 1 = l := by omega
    simp [hmod, hle, hl]

theorem not_cubeSat_of_contradictory {m : List Nat} (h : contradictory m = true)
    (ν : Nat → Bool) : ¬ CubeSat (Holds ν) m := by
  obtain ⟨l, hl, hf⟩ := List.any_eq_true.mp h
  intro hs
  exact holds_flip.mp (hs _ (of_decide_eq_true hf)) (hs l hl)

/-- Complement by De Morgan, and no minimisation. -/
def naive (C : Type*) : Minimiser C where
  complement := deMorgan
  espresso on _ _ := on
  tautology ms := (deMorgan ms).all contradictory

theorem naive_exact (C : Type*) : (naive C).Exact where
  complement _ _ := sat_deMorgan
  complement_vars := vars_deMorgan
  espresso_lower _ _ _ _ h _ := h
  espresso_upper _ _ _ _ h := Or.inl h
  espresso_vars _ _ _ := List.subset_append_left _ _
  tautology ms := by
    constructor
    · intro h ν
      by_contra hs
      obtain ⟨m, hm, hsat⟩ := sat_deMorgan.mpr hs
      exact not_cubeSat_of_contradictory (List.all_eq_true.mp h m hm) ν hsat
    · intro h
      refine List.all_eq_true.mpr fun m hm => ?_
      by_contra hc
      have hsat := cubeSat_of_not_contradictory (Bool.not_eq_true _ ▸ hc)
      exact sat_deMorgan.mp ⟨m, hm, hsat⟩ (h _)

/-- The cube lies inside a cube of the cover. -/
def inside (dc : List (List Nat)) (m : List Nat) : Bool := dc.any fun d => d.all (m.contains ·)

theorem sat_of_inside {ν : Nat → Bool} {dc : List (List Nat)} {m : List Nat}
    (h : inside dc m = true) (hm : CubeSat (Holds ν) m) : Sat (Holds ν) dc := by
  obtain ⟨d, hd, hall⟩ := List.any_eq_true.mp h
  refine ⟨d, hd, fun l hl => hm l ?_⟩
  exact List.contains_iff_mem.mp (List.all_eq_true.mp hall l hl)

/-- Cubes inside a don't-care are left out. -/
def pruning (C : Type*) : Minimiser C where
  complement := deMorgan
  espresso on dc _ := on.filter fun m => !inside dc m
  tautology ms := (deMorgan ms).all contradictory

theorem pruning_exact (C : Type*) : (pruning C).Exact where
  complement _ _ := sat_deMorgan
  complement_vars := vars_deMorgan
  espresso_lower := by
    rintro ν on dc c ⟨m, hm, hs⟩ hdc
    refine ⟨m, List.mem_filter.mpr ⟨hm, ?_⟩, hs⟩
    rw [Bool.not_eq_true', ← Bool.not_eq_true]
    exact fun h => hdc (sat_of_inside h hs)
  espresso_upper := by
    rintro ν on dc c ⟨m, hm, hs⟩
    exact Or.inl ⟨m, List.mem_of_mem_filter hm, hs⟩
  espresso_vars := by
    intro on dc c x hx
    obtain ⟨m, hm, l, hl, rfl⟩ := mem_vars.mp hx
    exact List.mem_append_left _ (mem_vars.mpr ⟨m, List.mem_of_mem_filter hm, l, hl, rfl⟩)
  tautology := (naive_exact C).tautology

end Cover

end GenieAcs
