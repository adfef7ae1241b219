import GenieAcs.SynthLeaves

/-!
# The minterms of a filter

The clause of a normal form is true, false or unknown on a row as the normal
form is, and its three covers hold on exactly the rows where it is.
-/

namespace GenieAcs

/-! ## Clauses of filters -/

namespace Clause

mutual

/-- The truth value of a clause built from the clauses of filters. -/
def truth (J : Js) (now : Option ℚ) (obj : Lookup) : Clause → Option Bool
  | not c => Kleene.neg (truth J now obj c)
  | or cs => Kleene.any (truths J now obj cs)
  | and cs => Kleene.all (truths J now obj cs)
  | isNull c => some (decide (truth J now obj c = none))
  | exp e => exprTruth J obj now e
  | compare (exp e) op v => exprTruth J obj now (.app op.toOp [e, .lit (some v)])
  | _ => none

def truths (J : Js) (now : Option ℚ) (obj : Lookup) : List Clause → List (Option Bool)
  | [] => []
  | c :: cs => truth J now obj c :: truths J now obj cs

end

variable {J : Js} {now : Option ℚ} {obj : Lookup}

theorem truths_eq_map (cs : List Clause) : truths J now obj cs = cs.map (truth J now obj) := by
  induction cs with
  | nil => rfl
  | cons c cs ih => rw [truths, List.map_cons, ih]

theorem truth_or (cs : List Clause) :
    truth J now obj (or cs) = Kleene.any (cs.map (truth J now obj)) := by
  rw [truth, truths_eq_map]

theorem truth_and (cs : List Clause) :
    truth J now obj (and cs) = Kleene.all (cs.map (truth J now obj)) := by
  rw [truth, truths_eq_map]

end Clause

theorem CompareOp.isCompare (op : CompareOp) : op.toOp.IsCompare := by
  cases op <;> constructor

theorem Leaf.clause_truth (J : Js) (now : Option ℚ) (obj : Lookup) (l : Leaf) :
    l.clause.truth J now obj = l.truth obj := by
  cases l with
  | param p => exact (Means.param p).exprTruth_eq
  | reversed op s p =>
      exact (Means.compare op.isCompare (evaluate_lit _) (Means.evaluate_param p)).exprTruth_eq
  | compare p op v =>
      exact (Means.compare op.isCompare (Means.evaluate_param p) (evaluate_lit _)).exprTruth_eq
  | isNull p =>
      have h : exprTruth J obj now (.ofParam p) = GenieAcs.truth (obj p) :=
        (Means.param p).exprTruth_eq
      simp only [clause, Clause.truth, h, truth, GenieAcs.truth_eq_none]

/-- The clauses of filters. -/
inductive Plain : Clause → Prop where
  | lit (v : Option Value) : Plain (.exp (.lit v))
  | leaf (l : Leaf) (h : l.Scalar) : Plain l.clause
  | not {c : Clause} (h : Plain c) : Plain (.not c)
  | and {cs : List Clause} (h : ∀ c ∈ cs, Plain c) : Plain (.and cs)
  | or {cs : List Clause} (h : ∀ c ∈ cs, Plain c) : Plain (.or cs)

/-- The time does not matter. -/
theorem Plain.truth_now {c : Clause} (h : Plain c) (J : Js) (now : Option ℚ) (obj : Lookup) :
    c.truth J now obj = c.truth J none obj := by
  induction h with
  | lit v => rfl
  | leaf l _ => rw [Leaf.clause_truth, Leaf.clause_truth]
  | not _ ih => rw [Clause.truth, Clause.truth, ih]
  | and _ ih => rw [Clause.truth_and, Clause.truth_and, List.map_congr_left ih]
  | or _ ih => rw [Clause.truth_or, Clause.truth_or, List.map_congr_left ih]

theorem Plain.operands {nested : Clause → Option (List Clause)}
    (hn : nested = Clause.orOperands ∨ nested = Clause.andOperands) {c : Clause}
    {cs : List Clause} (h : Plain c) (hc : nested c = some cs) : ∀ d ∈ cs, Plain d := by
  cases h with
  | lit v => rcases hn with rfl | rfl <;> cases hc
  | leaf l _ => rcases hn with rfl | rfl <;> cases l <;> cases hc
  | not h => rcases hn with rfl | rfl <;> cases hc
  | and h =>
      rcases hn with rfl | rfl
      · cases hc
      · cases hc
        exact h
  | or h =>
      rcases hn with rfl | rfl
      · cases hc
        exact h
      · cases hc

/-! ## Opening nested operands -/

section

variable {nested : Clause → Option (List Clause)}
  {smaller : ∀ c cs, nested c = some cs → sizeOf cs < sizeOf c}

theorem flatten_some {c : Clause} {rest cs : List Clause} (h : nested c = some cs) :
    Clause.flatten nested smaller (c :: rest) = Clause.flatten nested smaller (rest ++ cs) := by
  rw [Clause.flatten]
  split
  · rename_i cs' h'
    rw [h] at h'
    cases h'
    rfl
  · rename_i h'
    rw [h] at h'
    cases h'

theorem flatten_none {c : Clause} {rest : List Clause} (h : nested c = none) :
    Clause.flatten nested smaller (c :: rest) = c :: Clause.flatten nested smaller rest := by
  rw [Clause.flatten]
  split
  · rename_i cs' h'
    rw [h] at h'
    cases h'
  · rfl

theorem forall_flatten {P : Clause → Prop}
    (hP : ∀ c cs, nested c = some cs → P c → ∀ d ∈ cs, P d) (cs : List Clause)
    (h : ∀ c ∈ cs, P c) : ∀ c ∈ Clause.flatten nested smaller cs, P c := by
  induction cs using Clause.flatten.induct nested smaller with
  | case1 => simp [Clause.flatten]
  | case2 c rest cs' hc ih =>
      rw [flatten_some hc]
      refine ih fun d hd => ?_
      rcases List.mem_append.mp hd with hd | hd
      · exact h d (List.mem_cons_of_mem _ hd)
      · exact hP c cs' hc (h c (List.mem_cons_self ..)) d hd
  | case3 c rest hc ih =>
      rw [flatten_none hc]
      exact List.forall_mem_cons.mpr ⟨h c (List.mem_cons_self ..),
        ih fun d hd => h d (List.mem_cons_of_mem _ hd)⟩

end

variable {J : Js} {now : Option ℚ}

theorem any_flattenOr (obj : Lookup) (cs : List Clause) :
    Kleene.any ((Clause.flattenOr cs).map (Clause.truth J now obj))
      = Kleene.any (cs.map (Clause.truth J now obj)) := by
  unfold Clause.flattenOr
  induction cs using Clause.flatten.induct Clause.orOperands fun _ _ => Clause.sizeOf_orOperands with
  | case1 => simp [Clause.flatten]
  | case2 c rest cs' hc ih =>
      have hor : c = .or cs' := by
        cases c <;> simp [Clause.orOperands] at hc
        rw [hc]
      rw [flatten_some hc, ih, List.map_append, Kleene.any_append, hor, List.map_cons,
        Clause.truth_or, Kleene.any_pair_comm, ← Kleene.any_cons]
  | case3 c rest hc ih =>
      rw [flatten_none hc, List.map_cons, Kleene.any_cons, ih, ← Kleene.any_cons]
      rfl

theorem all_flattenAnd (obj : Lookup) (cs : List Clause) :
    Kleene.all ((Clause.flattenAnd cs).map (Clause.truth J now obj))
      = Kleene.all (cs.map (Clause.truth J now obj)) := by
  unfold Clause.flattenAnd
  induction cs using Clause.flatten.induct Clause.andOperands
      fun _ _ => Clause.sizeOf_andOperands with
  | case1 => simp [Clause.flatten]
  | case2 c rest cs' hc ih =>
      have hand : c = .and cs' := by
        cases c <;> simp [Clause.andOperands] at hc
        rw [hc]
      rw [flatten_some hc, ih, List.map_append, Kleene.all_append, hand, List.map_cons,
        Clause.truth_and, Kleene.all_pair_comm, ← Kleene.all_cons]
  | case3 c rest hc ih =>
      rw [flatten_none hc, List.map_cons, Kleene.all_cons, ih, ← Kleene.all_cons]
      rfl

/-! ## Minterms of lists of clauses -/

theorem Denotes.of_always {ls : List Leaf} {P : Row → Prop} (h : Denotes ls [[]] P) (row : Row) :
    P row := by
  obtain ⟨ν, ha⟩ := exists_agrees row ls
  exact (h.sat row ν ha).mp (by simp)

theorem Denotes.of_never {ls : List Leaf} {P : Row → Prop} (h : Denotes ls [] P) (row : Row) :
    ¬ P row := by
  obtain ⟨ν, ha⟩ := exists_agrees row ls
  exact fun hp => Cover.sat_nil ((h.sat row ν ha).mpr hp)

/-- The minterms a method makes say what `R` says. -/
def Gives (f : Clause → SynthM Minterms) (R : Clause → Row → Prop) (c : Clause) : Prop :=
  ∀ ls, Good ls → Runs (f c) ls fun ms ls' => Denotes ls' ms (R c)

/-- What a loop over operands ends with. -/
inductive Collected (R : Clause → Row → Prop) (decisive : Minterms → Bool) (cs : List Clause)
    (ls : List Leaf) : Option (List Minterms) → Prop where
  | decided {c : Clause} {ms : Minterms} (hc : c ∈ cs) (hd : decisive ms = true)
      (h : Denotes ls ms (R c)) : Collected R decisive cs ls none
  | all {mss : List Minterms} (h : List.Forall₂ (fun c ms => Denotes ls ms (R c)) cs mss) :
      Collected R decisive cs ls (some mss)

theorem collect_spec {f : Clause → SynthM Minterms} {R : Clause → Row → Prop}
    (decisive : Minterms → Bool) {cs : List Clause} {ls : List Leaf} (hg : Good ls)
    (h : ∀ c ∈ cs, Gives f R c) :
    Runs (Methods.collect f decisive cs) ls fun r ls' => Collected R decisive cs ls' r := by
  induction cs generalizing ls with
  | nil => exact Runs.pure hg (Collected.all List.Forall₂.nil)
  | cons c cs ih =>
      unfold Methods.collect
      refine Runs.bind (h c (List.mem_cons_self ..) ls hg) fun ms ls₁ _ hg₁ hms => ?_
      by_cases hd : decisive ms = true
      · rw [if_pos hd]
        exact Runs.pure hg₁ (Collected.decided (List.mem_cons_self ..) hd hms)
      · rw [if_neg hd]
        refine Runs.bind (ih hg₁ fun c hc => h c (List.mem_cons_of_mem _ hc))
          fun r ls₂ hpre hg₂ hr => Runs.pure hg₂ ?_
        cases hr with
        | decided hc hd h => exact Collected.decided (List.mem_cons_of_mem _ hc) hd h
        | all h => exact Collected.all (List.Forall₂.cons (hms.grow hpre) h)

theorem always_eq {ms : Minterms} (h : Methods.always ms = true) : ms = [[]] :=
  of_decide_eq_true h

section

variable {E : Env} {self : Methods} {f : Clause → SynthM Minterms} {R : Clause → Row → Prop}
  {cs : List Clause} {ls : List Leaf}

theorem someMinterms_spec (hg : Good ls) (h : ∀ c ∈ cs, Gives f R c) :
    Runs (Methods.someMinterms f cs) ls fun ms ls' =>
      Denotes ls' ms fun row => ∃ c ∈ cs, R c row := by
  refine Runs.bind (collect_spec Methods.always hg h) fun r ls₁ _ hg₁ hr => ?_
  cases hr with
  | decided hc hd hms =>
      rw [always_eq hd] at hms
      exact Runs.pure hg₁ (Denotes.everything.congr fun row =>
        iff_of_true trivial ⟨_, hc, hms.of_always row⟩)
  | all hms => exact Runs.pure hg₁ (Denotes.flatten hms)

theorem sat_conjunction (hM : E.M.Exact) (ν : Nat → Bool) (mss : List Minterms) :
    Cover.Sat (Cover.Holds ν) (Methods.conjunction E mss)
      ↔ ∀ ms ∈ mss, Cover.Sat (Cover.Holds ν) ms := by
  match mss with
  | [] => simp [Methods.conjunction]
  | [ms] => simp [Methods.conjunction]
  | m :: m' :: mss =>
      change Cover.Sat _ (E.M.complement ((m :: m' :: mss).map E.M.complement).flatten) ↔ _
      rw [hM.complement, Cover.sat_flatten]
      simp [hM.complement]

theorem vars_conjunction (hM : E.M.Exact) (mss : List Minterms) :
    Cover.vars (Methods.conjunction E mss) ⊆ mss.flatMap Cover.vars := by
  match mss with
  | [] => simp [Methods.conjunction, Cover.vars]
  | [ms] => simp [Methods.conjunction]
  | m :: m' :: mss =>
      intro x hx
      obtain ⟨cube, hcube, l, hl, rfl⟩ := Cover.mem_vars.mp (hM.complement_vars _ hx)
      obtain ⟨ms, hms, hcube⟩ := List.mem_flatten.mp hcube
      obtain ⟨ms', hms', rfl⟩ := List.mem_map.mp hms
      refine List.mem_flatMap.mpr ⟨ms', hms', hM.complement_vars _ ?_⟩
      exact Cover.mem_vars.mpr ⟨cube, hcube, l, hl, rfl⟩

/-- The conjunction of covers, some of which may always hold and be left out. -/
theorem conjunction_spec (hM : E.M.Exact) {mss : List Minterms}
    (h : List.Forall₂ (fun c ms => Denotes ls ms (R c)) cs mss) (keep : Minterms → Bool)
    (hkeep : ∀ ms, keep ms = false → ms = [[]]) :
    Denotes ls (Methods.conjunction E (mss.filter keep)) fun row => ∀ c ∈ cs, R c row := by
  have hvars : ∀ ms ∈ mss, VarsOk ls ms := by
    induction h with
    | nil => simp
    | cons hms _ ih => exact List.forall_mem_cons.mpr ⟨hms.vars, ih⟩
  have hsat : ∀ row ν, Agrees row ν ls →
      ((∀ ms ∈ mss.filter keep, Cover.Sat (Cover.Holds ν) ms) ↔ ∀ c ∈ cs, R c row) := by
    intro row ν ha
    clear hvars
    induction h with
    | nil => simp
    | @cons c ms cs mss hms _ ih =>
        rw [List.forall_mem_cons, ← ih, ← hms.sat row ν ha]
        cases hk : keep ms with
        | true => rw [List.filter_cons_of_pos hk, List.forall_mem_cons]
        | false =>
            rw [List.filter_cons_of_neg (by simp [hk]), hkeep ms hk]
            simp
  refine ⟨fun x hx => ?_, fun row ν ha => ?_⟩
  · obtain ⟨ms, hms, hx⟩ := List.mem_flatMap.mp (vars_conjunction hM _ hx)
    exact hvars ms (List.mem_of_mem_filter hms) x hx
  · rw [sat_conjunction hM, hsat row ν ha]

/-- No operand decides, and some operand is null. -/
theorem undecidedMinterms_spec (hM : E.M.Exact) (hg : Good ls) {N : Clause → Row → Prop}
    (h : ∀ c ∈ cs, Gives f R c) (hnull : ∀ c ∈ cs, Gives self.null' N c) :
    Runs (Methods.undecidedMinterms E self f cs) ls fun ms ls' =>
      Denotes ls' ms fun row => (∀ c ∈ cs, ¬ R c row) ∧ ∃ c ∈ cs, N c row := by
  refine Runs.bind (collect_spec Methods.always hg h) fun r ls₁ _ hg₁ hr => ?_
  cases hr with
  | decided hc hd hms =>
      rw [always_eq hd] at hms
      exact Runs.pure hg₁ (Denotes.nothing.congr fun row =>
        iff_of_false id fun hno => hno.1 _ hc (hms.of_always row))
  | @all ts hts =>
      have hdecided := Denotes.flatten hts
      refine Runs.bind (collect_spec _ hg₁ hnull) fun r ls₂ hpre hg₂ hr => ?_
      have hdecided := hdecided.grow hpre
      cases hr with
      | decided hc hd hms =>
          rw [Bool.and_eq_true] at hd
          rw [always_eq hd.1] at hms
          rw [List.isEmpty_iff.mp hd.2] at hdecided
          refine Runs.pure hg₂ (Denotes.everything.congr fun row => iff_of_true trivial ?_)
          exact ⟨fun c hc hR => hdecided.of_never row ⟨c, hc, hR⟩, _, hc, hms.of_always row⟩
      | all hns =>
          have hsome := Denotes.flatten hns
          dsimp only
          split_ifs with hempty
          · rw [List.isEmpty_iff.mp hempty] at hdecided
            refine Runs.pure hg₂ (hsome.congr fun row => ?_)
            exact ⟨fun hN => ⟨fun c hc hR => hdecided.of_never row ⟨c, hc, hR⟩, hN⟩, And.right⟩
          · refine Runs.pure hg₂ ((((hsome.complement hM).append hdecided).complement hM).congr
              fun row => ?_)
            constructor
            · intro hno
              push Not at hno
              exact ⟨hno.2, hno.1⟩
            · rintro ⟨hR, hN⟩ (hno | ⟨c, hc, hRc⟩)
              · exact hno hN
              · exact hR c hc hRc

end

/-! ## Minterms of one clause -/

section

variable {E : Env} {self : Methods} {ls : List Leaf}

/-- A leaf has its value when its literals do. -/
theorem getMinterms_spec (hm : LeafMethods self) (hg : Good ls) {l : Leaf} (hl : l.Scalar)
    (hnot : ¬ l.IsNullTest) (res : Option Bool) :
    Runs (self.getMinterms l.clause res) ls fun ms ls' =>
      Denotes ls' ms fun row => l.truth row.value = res := by
  refine Runs.bind (getVar_spec hm hg hl) fun v ls' _ hg' hv => ?_
  have hok : ∀ k < 4, VarOk ls' (literal v k / 2) := by
    intro k hk
    have h1 : literal v k / 2 / 2 = v := by unfold literal; omega
    exact ⟨l, by rw [h1, hv], fun h => absurd h hnot⟩
  have hvars : ∀ ks : List Nat, (∀ k ∈ ks, k < 4) → VarsOk ls' [ks.map (literal v)] := by
    intro ks hks x hx
    obtain ⟨_, hmem, i, hi, rfl⟩ := Cover.mem_vars.mp hx
    obtain ⟨k, hk, rfl⟩ := List.mem_map.mp (List.mem_singleton.mp hmem ▸ hi)
    exact hok k (hks k hk)
  rcases res with _ | _ | _
  · refine Runs.pure hg' ⟨hvars [0, 2] (by simp), fun row ν ha => ?_⟩
    simp only [Cover.sat_cons, Cover.cubeSat_cons, Cover.cubeSat_nil, Cover.sat_nil, and_true,
      or_false, holds_zero ha hv, holds_two ha hv]
    rcases l.truth row.value with _ | _ | _ <;> simp
  · refine Runs.pure hg' ⟨hvars [1] (by simp), fun row ν ha => ?_⟩
    simp [holds_one ha hv]
  · refine Runs.pure hg' ⟨hvars [3] (by simp), fun row ν ha => ?_⟩
    simp [holds_three ha hv]

end

/-- The clause has the truth value `t` on the row. -/
def Clause.Is (J : Js) (now : Option ℚ) (t : Option Bool) (c : Clause) (row : Row) : Prop :=
  c.truth J now row.value = t

/-- The three covers of a clause hold where the clause is true, false, null. -/
structure ClauseSpec (J : Js) (now : Option ℚ) (m : Methods) (c : Clause) : Prop where
  true' : Gives m.true' (Clause.Is J now (some true)) c
  false' : Gives m.false' (Clause.Is J now (some false)) c
  null' : Gives m.null' (Clause.Is J now none) c

variable {E : Env}

theorem litSpec (n : Nat) (v : Option Value) :
    ClauseSpec E.J now (methods E (n + 1)) (.exp (.lit v)) := by
  have his : ∀ (t : Option Bool) (row : Row),
      Clause.Is E.J now t (.exp (.lit v)) row ↔ truth v = t := fun t row => Iff.rfl
  refine ⟨fun ls hg => ?_, fun ls hg => ?_, fun ls hg => ?_⟩
  · refine Runs.pure hg ?_
    rcases v with _ | v
    · exact Denotes.nothing.congr fun row => by simp [his]
    · cases ht : (Expr.lit (some v)).truthy with
      | true => exact Denotes.everything.congr fun row => by simp [his, truth, ht]
      | false => exact Denotes.nothing.congr fun row => by simp [his, truth, ht]
  · refine Runs.pure hg ?_
    rcases v with _ | v
    · exact Denotes.nothing.congr fun row => by simp [his]
    · cases ht : (Expr.lit (some v)).truthy with
      | true => exact Denotes.nothing.congr fun row => by simp [his, truth, ht]
      | false =>
          simp only [Bool.not_false, Bool.true_and, Expr.null]
          exact Denotes.everything.congr fun row => by simp [his, truth, ht]
  · refine Runs.pure hg ?_
    rcases v with _ | v
    · exact Denotes.everything.congr fun row => by simp [his]
    · exact Denotes.nothing.congr fun row => by simp [his, truth]

theorem Leaf.clause_is {l : Leaf} {t : Option Bool} {row : Row} :
    Clause.Is J now t l.clause row ↔ l.truth row.value = t := by
  rw [Clause.Is, Leaf.clause_truth]

theorem leaf_getMinterms (n : Nat) {l : Leaf} (hl : l.Scalar) (hnot : ¬ l.IsNullTest)
    (res : Option Bool) {ls : List Leaf} (hg : Good ls) :
    Runs ((methods E (n + 3)).getMinterms l.clause res) ls fun ms ls' =>
      Denotes ls' ms (Clause.Is E.J now res l.clause) :=
  Runs.mono (getMinterms_spec (leafMethods E n) hg hl hnot res) fun _ _ _ _ hms =>
    hms.congr fun _ => Leaf.clause_is.symm

theorem paramSpec (n : Nat) (p : JsString) :
    ClauseSpec E.J now (methods E (n + 4)) (Leaf.param p).clause :=
  ⟨fun _ hg => leaf_getMinterms n (l := .param p) trivial id (some true) hg,
    fun _ hg => leaf_getMinterms n (l := .param p) trivial id (some false) hg,
    fun _ hg => leaf_getMinterms n (l := .param p) trivial id none hg⟩

/-- Where the parameter of a leaf is null. -/
theorem param_null (n : Nat) (p : JsString) {ls : List Leaf} (hg : Good ls) :
    Runs ((methods E (n + 4)).null' (.exp (.ofParam p))) ls fun ms ls' =>
      Denotes ls' ms fun row => row.value p = none :=
  Runs.mono ((@paramSpec none E n p).null' _ hg) fun _ _ _ _ hms =>
    hms.congr fun _ => Leaf.clause_is.trans truth_eq_none

theorem leafSpec (hM : E.M.Exact) (n : Nat) {l : Leaf} (hl : l.Scalar) :
    ClauseSpec E.J now (methods E (n + 6)) l.clause := by
  cases l with
  | param p => exact paramSpec (n + 2) p
  | reversed op s p =>
      exact ⟨fun _ hg => leaf_getMinterms (n + 2) (l := .reversed op s p) hl id (some true) hg,
        fun _ hg => leaf_getMinterms (n + 2) (l := .reversed op s p) hl id (some false) hg,
        fun _ hg => leaf_getMinterms (n + 2) (l := .reversed op s p) hl id none hg⟩
  | compare p op v =>
      refine ⟨fun _ hg => leaf_getMinterms (n + 2) (l := .compare p op v) hl id (some true) hg,
        fun _ hg => leaf_getMinterms (n + 2) (l := .compare p op v) hl id (some false) hg,
        fun ls hg => ?_⟩
      have heq : (methods E (n + 6)).null' (Leaf.compare p op v).clause
          = (methods E (n + 1 + 4)).null' (.exp (.ofParam p)) := rfl
      rw [heq]
      refine Runs.mono (param_null (n + 1) p hg) fun _ _ _ _ hms => hms.congr fun row => ?_
      rw [Leaf.clause_is, Leaf.truth_eq_none id, Leaf.name]
  | isNull p =>
      have his : ∀ (b : Bool) (row : Row), Clause.Is E.J now (some b) (Leaf.isNull p).clause row
          ↔ decide (row.value p = none) = b := by
        intro b row
        rw [Leaf.clause_is, Leaf.truth, Option.some.injEq]
      refine ⟨fun ls hg => ?_, fun ls hg => ?_, fun _ hg => ?_⟩
      · have heq : (methods E (n + 6)).true' (Leaf.isNull p).clause
            = (methods E (n + 1 + 4)).null' (.exp (.ofParam p)) := rfl
        rw [heq]
        refine Runs.mono (param_null (n + 1) p hg) fun _ _ _ _ hms => hms.congr fun row => ?_
        rw [his]
        simp
      · have heq : (methods E (n + 6)).false' (Leaf.isNull p).clause
            = ((methods E (n + 4)).null' (.exp (.ofParam p)) >>= fun m => pure (E.M.complement m)) :=
          rfl
        rw [heq]
        refine Runs.bind (param_null n p hg) fun ms ls' _ hg' hms => Runs.pure hg' ?_
        refine (hms.complement hM).congr fun row => ?_
        rw [his]
        simp
      · exact Runs.pure hg (Denotes.nothing.congr fun row => by
          rw [Leaf.clause_is, Leaf.truth]
          simp)

/-! ## Minterms of every clause -/

section

variable {m : Methods}

theorem ClauseSpec.not {n : Nat} {c : Clause} (h : ClauseSpec E.J now (methods E n) c) :
    ClauseSpec E.J now (methods E (n + 1)) (.not c) := by
  refine ⟨fun ls hg => ?_, fun ls hg => ?_, fun ls hg => ?_⟩
  · exact Runs.mono (h.false' ls hg) fun _ _ _ _ hms => hms.congr fun row => by
      simp [Clause.Is, Clause.truth]
  · exact Runs.mono (h.true' ls hg) fun _ _ _ _ hms => hms.congr fun row => by
      simp [Clause.Is, Clause.truth]
  · exact Runs.mono (h.null' ls hg) fun _ _ _ _ hms => hms.congr fun row => by
      simp [Clause.Is, Clause.truth]

theorem ClauseSpec.or {n : Nat} (hM : E.M.Exact) {cs : List Clause}
    (h : ∀ c ∈ cs, ClauseSpec E.J now (methods E n) c)
    (hflat : ∀ c ∈ Clause.flattenOr cs, ClauseSpec E.J now (methods E n) c) :
    ClauseSpec E.J now (methods E (n + 1)) (.or cs) := by
  have his : ∀ (t : Option Bool) (row : Row), Clause.Is E.J now t (.or cs) row
      ↔ Kleene.any (cs.map (Clause.truth E.J now row.value)) = t := by
    intro t row
    rw [Clause.Is, Clause.truth_or]
  refine ⟨fun ls hg => ?_, fun ls hg => ?_, fun ls hg => ?_⟩
  · refine Runs.mono (someMinterms_spec hg fun c hc => (h c hc).true') fun _ _ _ _ hms =>
      hms.congr fun row => ?_
    rw [his, Kleene.any_eq_true, List.mem_map]
    exact Iff.rfl
  · refine Runs.bind (collect_spec List.isEmpty hg fun c hc => (hflat c hc).false')
      fun r ls' _ hg' hr => ?_
    have hall : ∀ row, (∀ c ∈ Clause.flattenOr cs, Clause.Is E.J now (some false) c row)
        ↔ Clause.Is E.J now (some false) (.or cs) row := by
      intro row
      rw [his, ← any_flattenOr, Kleene.any_eq_false, List.forall_mem_map]
      exact Iff.rfl
    cases hr with
    | decided hc hd hms =>
        rw [List.isEmpty_iff.mp hd] at hms
        refine Runs.pure hg' (Denotes.nothing.congr fun row => ?_)
        rw [← hall]
        exact iff_of_false id fun hno => hms.of_never row (hno _ hc)
    | all hms =>
        refine Runs.pure hg' ?_
        have hconj := conjunction_spec hM hms (fun _ => true) (by simp)
        rw [List.filter_true] at hconj
        exact hconj.congr hall
  · refine Runs.mono (undecidedMinterms_spec hM hg (fun c hc => (hflat c hc).true')
      fun c hc => (hflat c hc).null') fun _ _ _ _ hms => hms.congr fun row => ?_
    rw [his, ← any_flattenOr, Kleene.any_eq_none]
    simp [Clause.Is]

theorem ClauseSpec.and {n : Nat} (hM : E.M.Exact) {cs : List Clause}
    (h : ∀ c ∈ cs, ClauseSpec E.J now (methods E n) c)
    (hflat : ∀ c ∈ Clause.flattenAnd cs, ClauseSpec E.J now (methods E n) c) :
    ClauseSpec E.J now (methods E (n + 1)) (.and cs) := by
  have his : ∀ (t : Option Bool) (row : Row), Clause.Is E.J now t (.and cs) row
      ↔ Kleene.all (cs.map (Clause.truth E.J now row.value)) = t := by
    intro t row
    rw [Clause.Is, Clause.truth_and]
  refine ⟨fun ls hg => ?_, fun ls hg => ?_, fun ls hg => ?_⟩
  · refine Runs.bind (collect_spec List.isEmpty hg fun c hc => (hflat c hc).true')
      fun r ls' _ hg' hr => ?_
    have hall : ∀ row, (∀ c ∈ Clause.flattenAnd cs, Clause.Is E.J now (some true) c row)
        ↔ Clause.Is E.J now (some true) (.and cs) row := by
      intro row
      rw [his, ← all_flattenAnd, Kleene.all_eq_true, List.forall_mem_map]
      exact Iff.rfl
    cases hr with
    | decided hc hd hms =>
        rw [List.isEmpty_iff.mp hd] at hms
        refine Runs.pure hg' (Denotes.nothing.congr fun row => ?_)
        rw [← hall]
        exact iff_of_false id fun hno => hms.of_never row (hno _ hc)
    | all hms =>
        refine Runs.pure hg' ?_
        exact (conjunction_spec hM hms (fun ms => !Methods.always ms) fun ms hms =>
          always_eq (by simpa using hms)).congr hall
  · refine Runs.mono (someMinterms_spec hg fun c hc => (h c hc).false') fun _ _ _ _ hms =>
      hms.congr fun row => ?_
    rw [his, Kleene.all_eq_false, List.mem_map]
    exact Iff.rfl
  · refine Runs.mono (undecidedMinterms_spec hM hg (fun c hc => (hflat c hc).false')
      fun c hc => (hflat c hc).null') fun _ _ _ _ hms => hms.congr fun row => ?_
    rw [his, ← all_flattenAnd, Kleene.all_eq_none]
    simp [Clause.Is]

end

theorem minterms_spec (hM : E.M.Exact) (n : Nat) :
    ∀ c, Plain c → sizeOf c + 6 ≤ n → ClauseSpec E.J now (methods E n) c := by
  induction n with
  | zero =>
      intro c _ hn
      omega
  | succ n ih =>
      intro c hc hn
      -- the operands of a clause, also those opened, are smaller
      have hsmall : ∀ {cs : List Clause}, sizeOf cs < sizeOf c → (∀ d ∈ cs, Plain d) →
          ∀ d ∈ cs, ClauseSpec E.J now (methods E n) d := by
        intro cs hcs hplain d hd
        have := List.sizeOf_lt_of_mem hd
        exact ih d (hplain d hd) (by omega)
      have hflat : ∀ {cs : List Clause} {nested : Clause → Option (List Clause)}
          (smaller : ∀ c cs, nested c = some cs → sizeOf cs < sizeOf c),
          (nested = Clause.orOperands ∨ nested = Clause.andOperands) →
          sizeOf cs < sizeOf c → (∀ d ∈ cs, Plain d) →
          ∀ d ∈ Clause.flatten nested smaller cs, ClauseSpec E.J now (methods E n) d := by
        intro cs nested smaller hnested hcs hplain d hd
        have hstep : ∀ e es, nested e = some es → (Plain e ∧ sizeOf e < sizeOf c) →
            ∀ d ∈ es, Plain d ∧ sizeOf d < sizeOf c := by
          intro e es he hpe d hd
          have := smaller e es he
          have := List.sizeOf_lt_of_mem hd
          exact ⟨hpe.1.operands hnested he d hd, by have := hpe.2; omega⟩
        have hboth := forall_flatten hstep cs
          (fun d hd => ⟨hplain d hd, by have := List.sizeOf_lt_of_mem hd; omega⟩) d hd
        exact ih d hboth.1 (by have := hboth.2; omega)
      cases hc with
      | lit v => exact litSpec n v
      | leaf l hl =>
          obtain ⟨k, rfl⟩ : ∃ k, n = k + 5 := ⟨n - 5, by omega⟩
          exact leafSpec hM k hl
      | not h => exact (ih _ h (by simp only [Clause.not.sizeOf_spec] at hn; omega)).not
      | and h =>
          exact ClauseSpec.and hM (hsmall (by simp) h) (hflat _ (Or.inr rfl) (by simp) h)
      | or h =>
          exact ClauseSpec.or hM (hsmall (by simp) h) (hflat _ (Or.inl rfl) (by simp) h)

/-! ## Clauses of normal forms -/

/-- The clause made of the expression, with the truth value of the expression. -/
def HasClause (E : Env) (e : Expr) : Prop :=
  ∃ c, (∀ n, fromExpression E.J (methods E (n + 1)) e = .ok c) ∧ Plain c ∧
    ∀ now obj, c.truth E.J now obj = exprTruth E.J obj now e

theorem clause_lit (n : Nat) (v : Option Value) :
    (Expr.lit v).map (clauseCallback E.J (methods E n)) = .ok (.exp (.lit v)) := rfl

theorem clause_param (n : Nat) (p : JsString) :
    (Expr.ofParam p).map (clauseCallback E.J (methods E (n + 1))) = .ok (.exp (.ofParam p)) :=
  rfl

/-- A comparison operator and the clause operator it stands for. -/
theorem positiveOp_compare {op : Op} (hop : op.IsCompare) :
    ∃ cop : CompareOp, (positiveOp op).1 = cop.toOp
      ∧ ∀ v w, compareTruth op v w
        = if (positiveOp op).2 then Kleene.neg (compareTruth cop.toOp v w)
          else compareTruth cop.toOp v w := by
  have hneg : ∀ (op : Op) (cop : CompareOp), (∀ o, op.holds o = !cop.toOp.holds o) →
      ∀ v w, compareTruth op v w = Kleene.neg (compareTruth cop.toOp v w) := by
    intro op cop h v w
    rcases v with _ | v <;> rcases w with _ | w <;> simp [compareTruth, Kleene.neg, h]
  cases hop with
  | eq => exact ⟨.eq, rfl, fun _ _ => rfl⟩
  | gt => exact ⟨.gt, rfl, fun _ _ => rfl⟩
  | lt => exact ⟨.lt, rfl, fun _ _ => rfl⟩
  | ne => exact ⟨.eq, rfl, hneg .ne .eq fun o => by cases o <;> rfl⟩
  | ge => exact ⟨.lt, rfl, hneg .ge .lt fun o => by cases o <;> rfl⟩
  | le => exact ⟨.gt, rfl, hneg .le .gt fun o => by cases o <;> rfl⟩

theorem positiveClause_compare (cop : CompareOp) (m : Methods) (args : List Clause) :
    positiveClause J m cop.toOp args = compareClause m cop args := by
  cases cop <;> rfl

/-- A comparison whose positive form is the clause of a leaf. -/
theorem hasClause_compare {op : Op} (hop : op.IsCompare) {a b : Expr} {c d : Clause}
    (ha : ∀ n, a.map (clauseCallback E.J (methods E (n + 1))) = .ok c)
    (hb : ∀ n, b.map (clauseCallback E.J (methods E (n + 1))) = .ok d)
    (hleaf : ∀ cop, ∃ l : Leaf, l.Scalar
      ∧ (∀ n, compareClause (methods E (n + 1)) cop [c, d] = .ok l.clause)
      ∧ ∀ now obj, ∃ v w, l.truth obj = compareTruth cop.toOp v w
        ∧ Means E.J obj now (.app op [a, b]) (compareTruth op v w)) :
    HasClause E (.app op [a, b]) := by
  obtain ⟨cop, hcop, hsem⟩ := positiveOp_compare hop
  obtain ⟨l, hl, hcl, htruth⟩ := hleaf cop
  have hmap : ∀ n, (Expr.app op [a, b]).map (clauseCallback E.J (methods E (n + 1)))
      = .ok (if (positiveOp op).2 then .not l.clause else l.clause) := by
    intro n
    rw [map_app (List.Forall₂.cons (ha n) (List.Forall₂.cons (hb n) List.Forall₂.nil)),
      clauseCallback, hcop, positiveClause_compare, hcl]
    rfl
  refine ⟨_, hmap, ?_, fun now obj => ?_⟩
  · split_ifs
    · exact (Plain.leaf l hl).not
    · exact Plain.leaf l hl
  · obtain ⟨v, w, hvw, hmeans⟩ := htruth now obj
    rw [hmeans.exprTruth_eq, hsem]
    split_ifs
    · rw [Clause.truth, Leaf.clause_truth, hvw]
    · rw [Leaf.clause_truth, hvw]

theorem hasClause_list {es : List Expr} (h : ∀ e ∈ es, HasClause E e) :
    ∃ cs, (∀ n, List.Forall₂
        (fun e c => e.map (clauseCallback E.J (methods E (n + 1))) = .ok c) es cs)
      ∧ (∀ c ∈ cs, Plain c)
      ∧ ∀ now obj, cs.map (Clause.truth E.J now obj) = es.map (exprTruth E.J obj now) := by
  induction es with
  | nil => exact ⟨[], fun _ => List.Forall₂.nil, by simp, fun _ _ => rfl⟩
  | cons e es ih =>
      obtain ⟨c, hto, hplain, hsem⟩ := h e (List.mem_cons_self ..)
      obtain ⟨cs, htos, hplains, hsems⟩ := ih fun e he => h e (List.mem_cons_of_mem _ he)
      exact ⟨c :: cs, fun n => List.Forall₂.cons (hto n) (htos n),
        List.forall_mem_cons.mpr ⟨hplain, hplains⟩,
        fun now obj => by rw [List.map_cons, List.map_cons, hsem, hsems]⟩

theorem Comparand.isScalar {v : Value} (h : Comparand v) : v.IsScalar := by
  cases h <;> exact fun b => by simp

theorem Normal.hasClause {e : Expr} (h : Normal e) : HasClause E e := by
  induction h with
  | bool b => exact ⟨_, fun n => clause_lit _ _, Plain.lit _, fun _ _ => rfl⟩
  | param p =>
      exact ⟨_, fun n => clause_param n p, Plain.leaf (.param p) trivial, fun _ _ => rfl⟩
  | isNull p =>
      refine ⟨(Leaf.isNull p).clause, fun _ => rfl, Plain.leaf _ trivial, fun now obj => ?_⟩
      rw [Leaf.clause_truth, (Means.isNull (Means.evaluate_param p)).exprTruth_eq]
      rfl
  | isNotNull p =>
      refine ⟨.not (Leaf.isNull p).clause, fun _ => rfl, (Plain.leaf (.isNull p) trivial).not,
        fun now obj => ?_⟩
      rw [Clause.truth, Leaf.clause_truth,
        (Means.isNotNull (Means.evaluate_param p)).exprTruth_eq, Leaf.truth]
      cases obj p <;> rfl
  | compare hop p hv =>
      refine hasClause_compare hop (clause_param · p) (fun _ => clause_lit _ _) fun cop => ?_
      refine ⟨.compare p cop _, hv.isScalar, fun _ => rfl, fun now obj => ⟨_, _, rfl, ?_⟩⟩
      exact Means.compare hop (Means.evaluate_param p) (evaluate_lit _)
  | compareLeft hop s p =>
      refine hasClause_compare hop (fun _ => clause_lit _ _) (clause_param · p) fun cop => ?_
      refine ⟨.reversed cop s p, trivial, fun _ => rfl, fun now obj => ⟨_, _, rfl, ?_⟩⟩
      exact Means.compare hop (evaluate_lit _) (Means.evaluate_param p)
  | not h ih =>
      obtain ⟨c, hto, hplain, hsem⟩ := ih
      refine ⟨.not c, fun n => ?_, hplain.not, fun now obj => ?_⟩
      · exact map_app (List.Forall₂.cons (hto n) List.Forall₂.nil)
      · rw [Clause.truth, hsem, exprTruth_not h]
  | and h ih =>
      obtain ⟨cs, hto, hplain, hsem⟩ := hasClause_list ih
      refine ⟨.and cs, fun n => map_app (hto n), Plain.and hplain, fun now obj => ?_⟩
      rw [Clause.truth_and, hsem, exprTruth_and h]
  | or h ih =>
      obtain ⟨cs, hto, hplain, hsem⟩ := hasClause_list ih
      refine ⟨.or cs, fun n => map_app (hto n), Plain.or hplain, fun now obj => ?_⟩
      rw [Clause.truth_or, hsem, exprTruth_or h]

end GenieAcs
