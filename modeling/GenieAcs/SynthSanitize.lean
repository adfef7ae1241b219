import GenieAcs.SynthDcSet

/-!
# Minterms without half literals

`sanitizeMinterms` replaces the literals that say "not true" and "not false"
of a clause by ones that say the same with its null test spelled out. What
the minterms say stays as it is, and so it does when they are minimised,
since no row satisfies a don't-care.
-/

namespace GenieAcs

open Cover

/-- `ms'` says the same as `ms` on every row. -/
structure Restates (ls : List Leaf) (ms ms' : Minterms) : Prop where
  vars : VarsOk ls ms'
  sat : ∀ row ν, Agrees row ν ls → (Sat (Holds ν) ms' ↔ Sat (Holds ν) ms)

section

variable {ls ls' : List Leaf}

theorem Restates.grow {ms ms' : Minterms} (h : Restates ls ms ms') (hpre : ls <+: ls') :
    Restates ls' ms ms' :=
  ⟨h.vars.grow hpre, fun row ν ha => h.sat row ν (ha.shrink hpre)⟩

theorem Restates.denotes {ms ms' : Minterms} {P : Row → Prop} (h : Restates ls ms ms')
    (hP : Denotes ls ms P) : Denotes ls ms' P :=
  ⟨h.vars, fun row ν ha => (h.sat row ν ha).trans (hP.sat row ν ha)⟩

theorem Restates.flatten {ms : Minterms} {mss : List Minterms}
    (h : List.Forall₂ (fun m ms' => Restates ls [m] ms') ms mss) :
    Restates ls ms mss.flatten := by
  induction h with
  | nil => exact ⟨by simp [VarsOk, Cover.vars], fun _ _ _ => Iff.rfl⟩
  | cons hm _ ih =>
      refine ⟨fun x hx => ?_, fun row ν ha => ?_⟩
      · rw [List.flatten_cons, vars_append, List.mem_append] at hx
        exact hx.elim (hm.vars x) (ih.vars x)
      · rw [List.flatten_cons, sat_append, hm.sat row ν ha, ih.sat row ν ha]
        simp

/-! ## The literals of one variable -/

/-- The literals of variable `v` in the minterm hold. -/
def VarHolds (ν : Nat → Bool) (m : Minterm) (v : Nat) : Prop := ∀ i ∈ m, i / 4 = v → Holds ν i

theorem varHolds_iff {row : Row} {ν : Nat → Bool} (ha : Agrees row ν ls) {m : Minterm} {v : Nat}
    {l : Leaf} (hv : ls[v]? = some l) :
    VarHolds ν m v ↔ (literal v 0 ∈ m → l.truth row.value ≠ some false)
      ∧ (literal v 1 ∈ m → l.truth row.value = some false)
      ∧ (literal v 2 ∈ m → l.truth row.value ≠ some true)
      ∧ (literal v 3 ∈ m → l.truth row.value = some true) := by
  constructor
  · intro h
    have hk : ∀ k, k < 4 → literal v k ∈ m → Holds ν (literal v k) :=
      fun k hk hmem => h _ hmem (literal_div_four v hk)
    exact ⟨fun hm => (holds_zero ha hv).mp (hk 0 (by omega) hm),
      fun hm => (holds_one ha hv).mp (hk 1 (by omega) hm),
      fun hm => (holds_two ha hv).mp (hk 2 (by omega) hm),
      fun hm => (holds_three ha hv).mp (hk 3 (by omega) hm)⟩
  · rintro ⟨h0, h1, h2, h3⟩ i hi rfl
    have hi' : i = literal (i / 4) (i % 4) := (literal_div_mod i).symm
    have hlt : i % 4 < 4 := Nat.mod_lt _ (by omega)
    rw [hi']
    generalize i / 4 = v at *
    generalize i % 4 = k at *
    subst hi'
    match k, hlt with
    | 0, _ => exact (holds_zero ha hv).mpr (h0 hi)
    | 1, _ => exact (holds_one ha hv).mpr (h1 hi)
    | 2, _ => exact (holds_two ha hv).mpr (h2 hi)
    | 3, _ => exact (holds_three ha hv).mpr (h3 hi)

theorem exists_literal {m : Minterm} {v : Nat} (h : v ∈ m.map (· / 4)) :
    literal v 0 ∈ m ∨ literal v 1 ∈ m ∨ literal v 2 ∈ m ∨ literal v 3 ∈ m := by
  obtain ⟨i, hi, rfl⟩ := List.mem_map.mp h
  have hlt : i % 4 < 4 := Nat.mod_lt _ (by omega)
  have hi' := literal_div_mod i
  generalize i % 4 = k at *
  rw [← hi'] at hi
  match k, hlt with
  | 0, _ => exact Or.inl hi
  | 1, _ => exact Or.inr (Or.inl hi)
  | 2, _ => exact Or.inr (Or.inr (Or.inl hi))
  | 3, _ => exact Or.inr (Or.inr (Or.inr hi))

theorem holds_nullTest {row : Row} {ν : Nat → Bool} (ha : Agrees row ν ls) {n : Nat} {l : Leaf}
    (hl : ¬ l.IsNullTest) (hn : ls[n]? = some (.isNull l.name)) :
    Holds ν (literal n 3) ↔ l.truth row.value = none := by
  rw [holds_three ha hn, Leaf.truth_eq_none hl]
  change some (decide _) = some true ↔ _
  simp

/-- What is left of some literals says `P`: nothing if they contradict one
another, else literals that stay and alternatives that one has to hold of. -/
def Leaves (ls : List Leaf) (P : (Nat → Bool) → Prop) : Option (Minterm × Minterms) → Prop
  | none => ∀ row ν, Agrees row ν ls → ¬ P ν
  | some (kept, perms) =>
      (∀ i ∈ kept, LitOk ls i) ∧ (∀ perm ∈ perms, ∀ i ∈ perm, LitOk ls i)
        ∧ ∀ row ν, Agrees row ν ls →
          (P ν ↔ CubeSat (Holds ν) kept ∧ ∀ perm ∈ perms, ∃ i ∈ perm, Holds ν i)

theorem Leaves.grow {P : (Nat → Bool) → Prop} {r : Option (Minterm × Minterms)}
    (h : Leaves ls P r) (hpre : ls <+: ls') : Leaves ls' P r := by
  rcases r with _ | ⟨kept, perms⟩
  · exact fun row ν ha => h row ν (ha.shrink hpre)
  · exact ⟨fun i hi => (h.1 i hi).grow hpre, fun perm hp i hi => (h.2.1 perm hp i hi).grow hpre,
      fun row ν ha => h.2.2 row ν (ha.shrink hpre)⟩

/-- One literal is left. -/
theorem Leaves.keep {P : (Nat → Bool) → Prop} {i : Nat} (hi : LitOk ls i)
    (h : ∀ row ν, Agrees row ν ls → (P ν ↔ Holds ν i)) : Leaves ls P (some ([i], [])) := by
  refine ⟨by simpa using hi, by simp, fun row ν ha => ?_⟩
  rw [h row ν ha]
  simp

/-- One of two literals is left. -/
theorem Leaves.either {P : (Nat → Bool) → Prop} {i j : Nat} (hi : LitOk ls i) (hj : LitOk ls j)
    (h : ∀ row ν, Agrees row ν ls → (P ν ↔ Holds ν i ∨ Holds ν j)) :
    Leaves ls P (some ([], [[i, j]])) := by
  refine ⟨by simp, by simpa using ⟨hi, hj⟩, fun row ν ha => ?_⟩
  rw [h row ν ha]
  simp

variable {self : Methods}

/-- `sanitizeVar` of a clause that is no null test. -/
def Methods.sanitizeOther (self : Methods) (m : Minterm) (v : Nat) (clause : Clause) :
    SynthM (Option (Minterm × Minterms)) :=
  if literal v 1 ∈ m ∧ literal v 3 ∈ m then pure none
  else do
    let ns ← self.isNullVars clause
    if literal v 0 ∈ m ∧ literal v 2 ∈ m then
      match ns with
      | [n] => pure (some ([literal n 3], []))
      | _ => pure (some ([], [ns.map (literal · 3)]))
    else if literal v 3 ∈ m then pure (some ([literal v 3], []))
    else if literal v 1 ∈ m then pure (some ([literal v 1], []))
    else if literal v 0 ∈ m then pure (some ([], [ns.map (literal · 3) ++ [literal v 3]]))
    else pure (some ([], [ns.map (literal · 3) ++ [literal v 1]]))

theorem sanitizeVar_spec (hm : LeafMethods self) (hg : Good ls) {m : Minterm} {v : Nat}
    (hmem : v ∈ m.map (· / 4)) (hok : ∀ i ∈ m, LitOk ls i) :
    Runs (self.sanitizeVar m v) ls fun r ls' => Leaves ls' (fun ν => VarHolds ν m v) r := by
  have hsome := exists_literal hmem
  obtain ⟨l, hv, hnulltest⟩ : ∃ l, ls[v]? = some l ∧
      (l.IsNullTest → literal v 0 ∉ m ∧ literal v 1 ∉ m) := by
    obtain ⟨i, hi, rfl⟩ := List.mem_map.mp hmem
    obtain ⟨l, hl, _⟩ := litOk_iff.mp (hok i hi)
    refine ⟨l, hl, fun hnull => ?_⟩
    have hge : ∀ k, k < 2 → literal (i / 4) k ∉ m := by
      intro k hk hmem
      obtain ⟨l', hl', h⟩ := litOk_iff.mp (hok _ hmem)
      rw [literal_div_four _ (by omega), hl] at hl'
      cases hl'
      have := h hnull
      rw [literal_mod_four _ (by omega)] at this
      omega
    exact ⟨hge 0 (by omega), hge 1 (by omega)⟩
  unfold Methods.sanitizeVar
  simp only [List.contains_iff_mem, Bool.and_eq_true, Bool.or_eq_true]
  by_cases h01 : literal v 0 ∈ m ∧ literal v 1 ∈ m
  · rw [if_pos h01]
    refine Runs.pure hg fun row ν ha h => ?_
    obtain ⟨h0, h1, _⟩ := (varHolds_iff ha hv).mp h
    exact h0 h01.1 (h1 h01.2)
  rw [if_neg h01]
  by_cases h23 : literal v 2 ∈ m ∧ literal v 3 ∈ m
  · rw [if_pos h23]
    refine Runs.pure hg fun row ν ha h => ?_
    obtain ⟨_, _, h2, h3⟩ := (varHolds_iff ha hv).mp h
    exact h2 h23.1 (h3 h23.2)
  rw [if_neg h23]
  refine Runs.get_bind ?_
  rw [getClause_ofLeaves hv]
  by_cases hl : l.IsNullTest
  · obtain ⟨p, rfl⟩ : ∃ p, l = .isNull p := by
      cases l <;> first | exact ⟨_, rfl⟩ | exact absurd hl id
    obtain ⟨h0, h1⟩ := hnulltest hl
    change Runs (if _ then _ else _) ls _
    rw [if_neg (not_or.mpr ⟨h0, h1⟩)]
    refine Runs.pure hg ?_
    by_cases h2 : literal v 2 ∈ m
    · have h3 : literal v 3 ∉ m := fun h3 => h23 ⟨h2, h3⟩
      rw [if_pos h2]
      refine Leaves.keep (litOk_literal hv (by omega) fun _ => le_rfl) fun row ν ha => ?_
      rw [varHolds_iff ha hv, holds_two ha hv]
      simp [h0, h1, h2, h3]
    · have h3 : literal v 3 ∈ m := by tauto
      rw [if_neg h2]
      refine Leaves.keep (litOk_literal hv (by omega) fun _ => by omega) fun row ν ha => ?_
      rw [varHolds_iff ha hv, holds_three ha hv]
      simp [h0, h1, h2, h3]
  · suffices h : Runs (self.sanitizeOther m v l.clause) ls
        fun r ls' => Leaves ls' (fun ν => VarHolds ν m v) r by
      cases l <;> first | exact h | exact absurd trivial hl
    unfold Methods.sanitizeOther
    by_cases h13 : literal v 1 ∈ m ∧ literal v 3 ∈ m
    · rw [if_pos h13]
      refine Runs.pure hg fun row ν ha h => ?_
      obtain ⟨_, h1, _, h3⟩ := (varHolds_iff ha hv).mp h
      have := (h1 h13.1).symm.trans (h3 h13.2)
      cases this
    rw [if_neg h13]
    refine Runs.bind (isNullVars_spec hm hg hl) fun ns ls₁ h₁ hg₁ hns => ?_
    obtain ⟨n, rfl, hn⟩ := hns
    have hv₁ := getElem?_grow h₁ hv
    have hnull : LitOk ls₁ (literal n 3) := litOk_literal hn (by omega) fun _ => by omega
    have hlit : ∀ k, k < 4 → LitOk ls₁ (literal v k) :=
      fun k hk => litOk_literal hv₁ hk fun h => absurd h hl
    have hvar : ∀ row ν, Agrees row ν ls₁ → (VarHolds ν m v ↔ _) :=
      fun row ν ha => varHolds_iff ha hv₁
    by_cases h02 : literal v 0 ∈ m ∧ literal v 2 ∈ m
    · rw [if_pos h02]
      refine Runs.pure hg₁ (Leaves.keep hnull fun row ν ha => ?_)
      have h1 : literal v 1 ∉ m := fun h1 => h01 ⟨h02.1, h1⟩
      have h3 : literal v 3 ∉ m := fun h3 => h23 ⟨h02.2, h3⟩
      rw [hvar row ν ha, holds_nullTest ha hl hn]
      cases l.truth row.value with
      | none => simp [h1, h3]
      | some b => cases b <;> simp [h02]
    rw [if_neg h02]
    by_cases h3 : literal v 3 ∈ m
    · have h1 : literal v 1 ∉ m := fun h1 => h13 ⟨h1, h3⟩
      have h2 : literal v 2 ∉ m := fun h2 => h23 ⟨h2, h3⟩
      rw [if_pos h3]
      refine Runs.pure hg₁ (Leaves.keep (hlit 3 (by omega)) fun row ν ha => ?_)
      rw [hvar row ν ha, holds_three ha hv₁]
      simp +contextual [h1, h2, h3]
    rw [if_neg h3]
    by_cases h1 : literal v 1 ∈ m
    · have h0 : literal v 0 ∉ m := fun h0 => h01 ⟨h0, h1⟩
      rw [if_pos h1]
      refine Runs.pure hg₁ (Leaves.keep (hlit 1 (by omega)) fun row ν ha => ?_)
      rw [hvar row ν ha, holds_one ha hv₁]
      simp +contextual [h0, h1, h3]
    rw [if_neg h1]
    by_cases h0 : literal v 0 ∈ m
    · have h2 : literal v 2 ∉ m := fun h2 => h02 ⟨h0, h2⟩
      rw [if_pos h0]
      refine Runs.pure hg₁ (Leaves.either hnull (hlit 3 (by omega)) fun row ν ha => ?_)
      rw [hvar row ν ha, holds_nullTest ha hl hn, holds_three ha hv₁]
      cases l.truth row.value with
      | none => simp [h1, h2, h3]
      | some b => cases b <;> simp [h0, h1, h2, h3]
    · have h2 : literal v 2 ∈ m := by tauto
      rw [if_neg h0]
      refine Runs.pure hg₁ (Leaves.either hnull (hlit 1 (by omega)) fun row ν ha => ?_)
      rw [hvar row ν ha, holds_nullTest ha hl hn, holds_one ha hv₁]
      cases l.truth row.value with
      | none => simp [h0, h1, h3]
      | some b => cases b <;> simp [h0, h1, h2, h3]

/-! ## Minterms -/

theorem sanitizeVars_spec (hm : LeafMethods self) {m : Minterm} (vs : List Nat) :
    ∀ ls, Good ls → vs ⊆ m.map (· / 4) → (∀ i ∈ m, LitOk ls i) →
      Runs (self.sanitizeVars m vs) ls fun r ls' =>
        Leaves ls' (fun ν => ∀ v ∈ vs, VarHolds ν m v) r := by
  induction vs with
  | nil =>
      intro ls hg _ _
      exact Runs.pure hg ⟨by simp, by simp, fun _ _ _ => by simp⟩
  | cons v vs ih =>
      intro ls hg hvs hok
      obtain ⟨hv, hvs⟩ := List.cons_subset.mp hvs
      unfold Methods.sanitizeVars
      refine Runs.bind (sanitizeVar_spec hm hg hv hok) fun r ls₁ h₁ hg₁ hr => ?_
      rcases r with _ | ⟨kept, perms⟩
      · exact Runs.pure hg₁ fun row ν ha h => hr row ν ha (h v (List.mem_cons_self ..))
      refine Runs.bind (ih ls₁ hg₁ hvs fun i hi => (hok i hi).grow h₁) fun r ls₂ h₂ hg₂ hr' => ?_
      rcases r with _ | ⟨kept', perms'⟩
      · exact Runs.pure hg₂ fun row ν ha h => hr' row ν ha (List.forall_mem_cons.mp h).2
      obtain ⟨hkept, hperms, hsat⟩ := hr.grow h₂
      obtain ⟨hkept', hperms', hsat'⟩ := hr'
      refine Runs.pure hg₂ ⟨List.forall_mem_append.mpr ⟨hkept, hkept'⟩,
        List.forall_mem_append.mpr ⟨hperms, hperms'⟩, fun row ν ha => ?_⟩
      have hvar := hsat row ν ha
      have hvars := hsat' row ν ha
      dsimp only at hvar hvars ⊢
      rw [List.forall_mem_cons, hvar, hvars, cubeSat_append, List.forall_mem_append]
      tauto

theorem sat_expandPerms {ν : Nat → Bool} (minterm : Minterm) (perms : Minterms) :
    Sat (Holds ν) (Methods.expandPerms minterm perms)
      ↔ CubeSat (Holds ν) minterm ∧ ∀ perm ∈ perms, ∃ i ∈ perm, Holds ν i := by
  induction perms with
  | nil => simp [Methods.expandPerms]
  | cons perm perms ih =>
      rw [Methods.expandPerms, List.foldr_cons, ← Methods.expandPerms, sat_flatMap,
        List.forall_mem_cons]
      have hone : ∀ i, Sat (Holds ν) ((Methods.expandPerms minterm perms).map (· ++ [i]))
          ↔ Sat (Holds ν) (Methods.expandPerms minterm perms) ∧ Holds ν i := by
        intro i
        simp only [Sat, List.mem_map, exists_exists_and_eq_and, cubeSat_append, cubeSat_cons,
          cubeSat_nil, and_true, ← and_assoc, exists_and_right]
      simp only [hone, ih]
      tauto

theorem mem_expandPerms {minterm : Minterm} {perms : Minterms} {c : Minterm} {i : Nat}
    (hc : c ∈ Methods.expandPerms minterm perms) (hi : i ∈ c) :
    i ∈ minterm ∨ ∃ perm ∈ perms, i ∈ perm := by
  induction perms generalizing c with
  | nil =>
      rw [List.mem_singleton.mp hc] at hi
      exact Or.inl hi
  | cons perm perms ih =>
      rw [Methods.expandPerms, List.foldr_cons, ← Methods.expandPerms] at hc
      obtain ⟨p, hp, hc⟩ := List.mem_flatMap.mp hc
      obtain ⟨c', hc', rfl⟩ := List.mem_map.mp hc
      rcases List.mem_append.mp hi with hi | hi
      · rcases ih hc' hi with h | ⟨perm', hperm, h⟩
        · exact Or.inl h
        · exact Or.inr ⟨perm', List.mem_cons_of_mem _ hperm, h⟩
      · rw [List.mem_singleton.mp hi]
        exact Or.inr ⟨perm, List.mem_cons_self .., hp⟩

theorem sanitizeMinterm_spec (hm : LeafMethods self) (hg : Good ls) {m : Minterm}
    (hok : ∀ i ∈ m, LitOk ls i) :
    Runs (self.sanitizeMinterm m) ls fun ms ls' => Restates ls' [m] ms := by
  unfold Methods.sanitizeMinterm
  have hsub : (m.map (· / 4)).eraseDups ⊆ m.map (· / 4) := fun v hv => List.mem_eraseDups.mp hv
  have hall : ∀ ν, (∀ v ∈ (m.map (· / 4)).eraseDups, VarHolds ν m v) ↔ Sat (Holds ν) [m] := by
    intro ν
    rw [sat_cons, or_iff_left sat_nil]
    constructor
    · intro h i hi
      exact h (i / 4) (List.mem_eraseDups.mpr (List.mem_map_of_mem hi)) i hi rfl
    · intro h v _ i hi _
      exact h i hi
  refine Runs.bind (sanitizeVars_spec hm _ ls hg hsub hok) fun r ls₁ _ hg₁ hr => ?_
  rcases r with _ | ⟨minterm, perms⟩
  · refine Runs.pure hg₁ ⟨by simp [VarsOk, Cover.vars], fun row ν ha => ?_⟩
    rw [← hall ν]
    exact iff_of_false sat_nil (hr row ν ha)
  · obtain ⟨hkept, hperms, hsat⟩ := hr
    refine Runs.pure hg₁ ⟨varsOk_iff.mpr fun c hc i hi => ?_, fun row ν ha => ?_⟩
    · rcases mem_expandPerms hc hi with h | ⟨perm, hperm, h⟩
      · exact hkept i h
      · exact hperms perm hperm i h
    · rw [sat_expandPerms, ← hall ν]
      exact (hsat row ν ha).symm

theorem sanitizeMinterms_spec (hm : LeafMethods self) (hg : Good ls) {ms : Minterms}
    (hms : VarsOk ls ms) :
    Runs (self.sanitizeMinterms ms) ls fun ms' ls' => Restates ls' ms ms' := by
  unfold Methods.sanitizeMinterms
  have hall : Runs (ms.mapM self.sanitizeMinterm) ls fun mss ls' =>
      List.Forall₂ (fun m ms' => Restates ls' [m] ms') ms mss := by
    refine @Runs.mapM _ _ _ (fun m ms' ls => Restates ls [m] ms')
      (fun _ _ _ _ h hpre => h.grow hpre) _ _ hg fun m hmem ls' hpre hg' => ?_
    exact sanitizeMinterm_spec hm hg' fun i hi => (varsOk_iff.mp hms m hmem i hi).grow hpre
  exact Runs.bind hall fun mss ls₁ _ hg₁ hmss => Runs.pure hg₁ (Restates.flatten hmss)

/-- Minimised minterms hold on the same rows, but for those on which the
don't-cares hold. -/
theorem minimize_dontCare {E : Env} (hM : E.M.Exact) (hm : LeafMethods self)
    (hrounds : 2 ≤ self.rounds) (hg : Good ls) {ms dcSet : Minterms} {P D : Row → Prop}
    (hP : Denotes ls ms P) (hD : Denotes ls dcSet D) :
    Runs (self.minimize E ms dcSet) ls fun ms' ls' =>
      ∃ Q, Denotes ls' ms' Q ∧ ∀ row, ¬ D row → (Q row ↔ P row) := by
  unfold Methods.minimize
  refine Runs.bind (sanitizeMinterms_spec hm hg hP.vars) fun ms₁ ls₁ h₁ hg₁ hms₁ => ?_
  have hP₁ := hms₁.denotes (hP.grow h₁)
  have hD₁ := hD.grow h₁
  refine Runs.bind (getDcSet_spec E hm hrounds hg₁ (hP₁.append hD₁).vars)
    fun dc ls₂ h₂ hg₂ hdc => ?_
  have hP₂ := hP₁.grow h₂
  have hD₂ := Denotes.append hdc (hD₁.grow h₂)
  have hvars : VarsOk ls₂ (E.M.espresso ms₁ (dc ++ dcSet) (self.hints (ofLeaves ls₂))) := by
    intro x hx
    rcases List.mem_append.mp (hM.espresso_vars _ _ _ hx) with h | h
    · exact hP₂.vars x h
    · exact hD₂.vars x h
  obtain ⟨Q, hQ⟩ := exists_denotes hvars
  refine Runs.get_bind (Runs.pure hg₂ ⟨Q, hQ, fun row hrow => ?_⟩)
  obtain ⟨ν, ha⟩ := exists_agrees row ls₂
  have hdont : ¬ Sat (Holds ν) (dc ++ dcSet) := by
    rw [hD₂.sat row ν ha, not_or]
    exact ⟨id, hrow⟩
  rw [← hQ.sat row ν ha, hM.espresso _ hdont, hP₂.sat row ν ha]

/-- Without further don't-cares they hold on the same rows. -/
theorem minimize_spec {E : Env} (hM : E.M.Exact) (hm : LeafMethods self)
    (hrounds : 2 ≤ self.rounds) (hg : Good ls) {ms : Minterms} {P : Row → Prop}
    (hP : Denotes ls ms P) :
    Runs (self.minimize E ms []) ls fun ms' ls' => Denotes ls' ms' P := by
  refine (minimize_dontCare hM hm hrounds hg hP Denotes.nothing).mono fun ms' ls' _ _ h => ?_
  obtain ⟨Q, hQ, hrows⟩ := h
  exact hQ.congr fun row => hrows row id

end

end GenieAcs
