import GenieAcs.SynthMinterms
import Mathlib.Data.List.Induction
import Mathlib.Tactic.Order

/-!
# The don't-care set

Every minterm of the don't-care set is false on every row: a value is below,
at or above another, comparisons follow the order of the values compared
with, a comparison is null exactly when its parameter is, and a device has an
id.
-/

namespace GenieAcs

open Cover

/-! ## Literals -/

theorem literal_div_four (v : Nat) {k : Nat} (hk : k < 4) : literal v k / 4 = v := by
  unfold literal
  omega

theorem literal_mod_four (v : Nat) {k : Nat} (hk : k < 4) : literal v k % 4 = k := by
  unfold literal
  omega

theorem literal_div_mod (i : Nat) : literal (i / 4) (i % 4) = i := by
  unfold literal
  omega

/-- The literal is about a leaf of the context. -/
def LitOk (ls : List Leaf) (i : Nat) : Prop := VarOk ls (i / 2)

theorem litOk_iff {ls : List Leaf} {i : Nat} :
    LitOk ls i ↔ ∃ l, ls[i / 4]? = some l ∧ (l.IsNullTest → 2 ≤ i % 4) := by
  have h1 : i / 2 / 2 = i / 4 := by omega
  have h2 : i / 2 % 2 = 1 ↔ 2 ≤ i % 4 := by omega
  simp only [LitOk, VarOk, h1, h2]

theorem litOk_literal {ls : List Leaf} {v k : Nat} {l : Leaf} (hv : ls[v]? = some l) (hk : k < 4)
    (h : l.IsNullTest → 2 ≤ k) : LitOk ls (literal v k) := by
  rw [litOk_iff, literal_div_four v hk, literal_mod_four v hk]
  exact ⟨l, hv, h⟩

theorem varsOk_iff {ls : List Leaf} {ms : Minterms} :
    VarsOk ls ms ↔ ∀ m ∈ ms, ∀ i ∈ m, LitOk ls i := by
  constructor
  · intro h m hm i hi
    exact h _ (mem_vars.mpr ⟨m, hm, i, hi, rfl⟩)
  · rintro h x hx
    obtain ⟨m, hm, i, hi, rfl⟩ := mem_vars.mp hx
    exact h m hm i hi

theorem LitOk.grow {ls ls' : List Leaf} {i : Nat} (h : LitOk ls i) (hpre : ls <+: ls') :
    LitOk ls' i :=
  VarOk.grow h hpre

theorem VarsOk.grow {ls ls' : List Leaf} {ms : Minterms} (h : VarsOk ls ms) (hpre : ls <+: ls') :
    VarsOk ls' ms :=
  fun x hx => (h x hx).grow hpre

/-! ## The don't-cares of comparisons -/

theorem Value.IsScalar.eq_of_rank_eq {v w : Value} (hv : v.IsScalar) (hw : w.IsScalar)
    (h : v.rank = w.rank) : v = w := by
  cases v with
  | bool b => exact absurd rfl (hv b)
  | num q =>
      cases w with
      | bool b => exact absurd rfl (hw b)
      | num r => simpa [Value.rank] using h
      | str s => simp [Value.rank] at h
  | str s =>
      cases w with
      | bool b => exact absurd rfl (hw b)
      | num r => simp [Value.rank] at h
      | str t => simpa [Value.rank] using h

/-- What the clause operator says of two ranks. -/
def CompareOp.Rel (op : CompareOp) (v w : Value) : Prop :=
  match op with
  | .gt => w.rank < v.rank
  | .lt => v.rank < w.rank
  | .eq => v.rank = w.rank

theorem holds_compare (op : CompareOp) (v w : Value) :
    op.toOp.holds (v.compare w) = true ↔ op.Rel v w := by
  cases op with
  | gt => simp [CompareOp.toOp, Op.holds, CompareOp.Rel, ← Value.compare_eq_gt]
  | lt => simp [CompareOp.toOp, Op.holds, CompareOp.Rel, ← Value.compare_eq_lt]
  | eq => simp [CompareOp.toOp, Op.holds, CompareOp.Rel, ← Value.compare_eq_eq]

theorem compare_true {p : JsString} {op : CompareOp} {v : Value} {obj : Lookup} :
    (Leaf.compare p op v).truth obj = some true ↔ ∃ x, obj p = some x ∧ op.Rel x v := by
  simp only [Leaf.truth]
  cases obj p <;> simp [compareTruth, holds_compare]

theorem compare_false {p : JsString} {op : CompareOp} {v : Value} {obj : Lookup} :
    (Leaf.compare p op v).truth obj = some false ↔ ∃ x, obj p = some x ∧ ¬ op.Rel x v := by
  simp only [Leaf.truth]
  cases obj p <;> simp [compareTruth, ← holds_compare]

/-- Minterms that are false on every row. -/
abbrev Impossible (ls : List Leaf) (ms : Minterms) : Prop := Denotes ls ms fun _ => False

section

variable {ls : List Leaf}

theorem Impossible.append {ms ms' : Minterms} (h : Impossible ls ms) (h' : Impossible ls ms') :
    Impossible ls (ms ++ ms') :=
  (Denotes.append h h').congr fun _ => or_self_iff

theorem Impossible.subset {ms ms' : Minterms} (h : Impossible ls ms) (hsub : ms' ⊆ ms) :
    Impossible ls ms' := by
  refine ⟨varsOk_iff.mpr fun m hm => varsOk_iff.mp h.vars m (hsub hm), fun row ν ha => ?_⟩
  refine iff_of_false ?_ id
  rintro ⟨m, hm, hs⟩
  exact (h.sat row ν ha).mp ⟨m, hsub hm, hs⟩

theorem Impossible.flatten {mss : List Minterms} (h : ∀ ms ∈ mss, Impossible ls ms) :
    Impossible ls mss.flatten := by
  induction mss with
  | nil => exact Denotes.nothing
  | cons ms mss ih =>
      exact (h ms (List.mem_cons_self ..)).append (ih fun ms hms => h ms (List.mem_cons_of_mem _ hms))

/-- The variables of the three comparisons of a parameter with a value. -/
structure CompareVars (ls : List Leaf) (p : JsString) (v : Value) (eq gt lt : Nat) : Prop where
  eq : ls[eq]? = some (.compare p .eq v)
  gt : ls[gt]? = some (.compare p .gt v)
  lt : ls[lt]? = some (.compare p .lt v)

theorem CompareVars.grow {ls' : List Leaf} {p : JsString} {v : Value} {eq gt lt : Nat}
    (h : CompareVars ls p v eq gt lt) (hpre : ls <+: ls') : CompareVars ls' p v eq gt lt :=
  ⟨getElem?_grow hpre h.eq, getElem?_grow hpre h.gt, getElem?_grow hpre h.lt⟩

theorem Impossible.cons {m : Minterm} {ms : Minterms} (h : Impossible ls [m])
    (h' : Impossible ls ms) : Impossible ls (m :: ms) :=
  h.append h'

/-- What literal `k` says of a leaf. -/
def Leaf.Says (l : Leaf) (k : Nat) (row : Row) : Prop :=
  match k with
  | 3 => l.truth row.value = some true
  | 2 => l.truth row.value ≠ some true
  | 1 => l.truth row.value = some false
  | _ => l.truth row.value ≠ some false

theorem holds_literal {row : Row} {ν : Nat → Bool} (ha : Agrees row ν ls) {v k : Nat} {l : Leaf}
    (hv : ls[v]? = some l) (hk : k < 4) : Holds ν (literal v k) ↔ l.Says k row := by
  match k, hk with
  | 0, _ => exact holds_zero ha hv
  | 1, _ => exact holds_one ha hv
  | 2, _ => exact holds_two ha hv
  | 3, _ => exact holds_three ha hv

/-- A minterm is impossible if its literals never hold together. The literals
are given by their variable, its leaf and what they say of it. -/
theorem cube_impossible {cube : List (Nat × Leaf × Nat)}
    (hok : ∀ s ∈ cube, ls[s.1]? = some s.2.1 ∧ s.2.2 < 4 ∧ (s.2.1.IsNullTest → 2 ≤ s.2.2))
    (hno : ∀ row, ¬ ∀ s ∈ cube, s.2.1.Says s.2.2 row) :
    Impossible ls [cube.map fun s => literal s.1 s.2.2] := by
  refine ⟨varsOk_iff.mpr fun m hm i hi => ?_, fun row ν ha => iff_of_false ?_ id⟩
  · rw [List.mem_singleton.mp hm] at hi
    obtain ⟨s, hs, rfl⟩ := List.mem_map.mp hi
    obtain ⟨hv, hk, hnull⟩ := hok s hs
    exact litOk_literal hv hk hnull
  · rintro ⟨m, hm, hsat⟩
    rw [List.mem_singleton.mp hm] at hsat
    refine hno row fun s hs => ?_
    obtain ⟨hv, hk, _⟩ := hok s hs
    exact (holds_literal ha hv hk).mp (hsat _ (List.mem_map_of_mem hs))

/-- The literal that says whether a comparison is true or false. -/
def decided (b : Bool) : Nat := if b then 3 else 1

theorem decided_lt (b : Bool) : decided b < 4 := by
  cases b <;> simp [decided]

theorem compare_decided {p : JsString} {op : CompareOp} {v : Value} (b : Bool) {row : Row} :
    (Leaf.compare p op v).Says (decided b) row
      ↔ ∃ x, row.value p = some x ∧ (op.Rel x v ↔ b = true) := by
  cases b with
  | true =>
      refine compare_true.trans ?_
      simp
  | false =>
      refine compare_false.trans ?_
      simp

/-- Comparisons of one parameter that are never decided that way together. -/
theorem compares_impossible {p : JsString} {cube : List (Nat × CompareOp × Value × Bool)}
    (hv : ∀ s ∈ cube, ls[s.1]? = some (.compare p s.2.1 s.2.2.1))
    (hne : cube ≠ [])
    (hno : ∀ x, ¬ ∀ s ∈ cube, s.2.1.Rel x s.2.2.1 ↔ s.2.2.2 = true) :
    Impossible ls [cube.map fun s => literal s.1 (decided s.2.2.2)] := by
  have h := @cube_impossible ls
    (cube.map fun s => (s.1, .compare p s.2.1 s.2.2.1, decided s.2.2.2)) ?_ ?_
  · rw [List.map_map] at h
    exact h
  · intro s hs
    obtain ⟨s', hs', rfl⟩ := List.mem_map.mp hs
    exact ⟨hv s' hs', decided_lt _, False.elim⟩
  · intro row hall
    have hlit : ∀ s ∈ cube, ∃ x, row.value p = some x ∧ (s.2.1.Rel x s.2.2.1 ↔ s.2.2.2 = true) :=
      fun s hs => (compare_decided _).mp (hall _ (List.mem_map_of_mem hs))
    obtain ⟨s, hs⟩ := List.exists_mem_of_ne_nil cube hne
    obtain ⟨x, hx, _⟩ := hlit s hs
    refine hno x fun s' hs' => ?_
    obtain ⟨y, hy, hrel⟩ := hlit s' hs'
    rw [hx] at hy
    cases hy
    exact hrel

/-- Two comparisons of one parameter. -/
theorem pair_impossible {p : JsString} {a b : Nat} {op1 op2 : CompareOp} {v1 v2 : Value}
    (ha : ls[a]? = some (.compare p op1 v1)) (hb : ls[b]? = some (.compare p op2 v2))
    (b1 b2 : Bool) (hno : ∀ x, ¬ ((op1.Rel x v1 ↔ b1 = true) ∧ (op2.Rel x v2 ↔ b2 = true))) :
    Impossible ls [[literal a (decided b1), literal b (decided b2)]] :=
  @compares_impossible ls p [(a, op1, v1, b1), (b, op2, v2, b2)]
    (List.forall_mem_cons.mpr ⟨ha, List.forall_mem_singleton.mpr hb⟩) (by simp)
    (by simpa using hno)

theorem trichotomy_impossible {p : JsString} {v : Value} {eq gt lt : Nat}
    (h : CompareVars ls p v eq gt lt) : Impossible ls (Methods.trichotomy eq gt lt) := by
  refine Impossible.cons (pair_impossible h.eq h.gt true true ?_) ?_
  · intro x
    simp only [CompareOp.Rel, iff_true]
    rintro ⟨h1, h2⟩
    order
  refine Impossible.cons (pair_impossible h.lt h.gt true true ?_) ?_
  · intro x
    simp only [CompareOp.Rel, iff_true]
    rintro ⟨h1, h2⟩
    order
  refine Impossible.cons (pair_impossible h.lt h.eq true true ?_) ?_
  · intro x
    simp only [CompareOp.Rel, iff_true]
    rintro ⟨h1, h2⟩
    order
  refine @compares_impossible ls p
    [(lt, .lt, v, false), (eq, .eq, v, false), (gt, .gt, v, false)] ?_ (by simp) ?_
  · simpa using ⟨h.lt, h.eq, h.gt⟩
  · intro x
    simp only [CompareOp.Rel, List.forall_mem_cons, Bool.false_eq_true, iff_false]
    rintro ⟨h1, h2, h3, _⟩
    order

/-- Comparisons with a value and with a smaller one. -/
theorem ordered_impossible {p : JsString} {v w : Value} {eq gt lt eq2 gt2 lt2 : Nat}
    (h : CompareVars ls p v eq gt lt) (h2 : CompareVars ls p w eq2 gt2 lt2)
    (hlt : w.rank < v.rank) : Impossible ls (Methods.ordered eq gt lt eq2 gt2 lt2) := by
  have hone : ∀ {a b : Nat} {op1 op2 : CompareOp} (b1 b2 : Bool)
      (_ : ls[a]? = some (.compare p op1 w)) (_ : ls[b]? = some (.compare p op2 v))
      (_ : ∀ x : Value, ¬ ((op1.Rel x w ↔ b1 = true) ∧ (op2.Rel x v ↔ b2 = true))),
      Impossible ls [[literal a (decided b1), literal b (decided b2)]] :=
    fun b1 b2 ha hb hno => pair_impossible ha hb b1 b2 hno
  refine Impossible.cons (hone false false h2.gt h.lt ?_) ?_
  rotate_left
  refine Impossible.cons (hone true false h2.eq h.lt ?_) ?_
  rotate_left
  refine Impossible.cons (hone true false h2.lt h.lt ?_) ?_
  rotate_left
  refine Impossible.cons (hone false true h2.gt h.gt ?_) ?_
  rotate_left
  refine Impossible.cons (hone false true h2.gt h.eq ?_) ?_
  rotate_left
  refine Impossible.cons (hone true true h2.eq h.gt ?_) ?_
  rotate_left
  refine Impossible.cons (hone true true h2.eq h.eq ?_) ?_
  rotate_left
  refine Impossible.cons (hone true true h2.lt h.gt ?_) ?_
  rotate_left
  refine Impossible.cons (hone true true h2.lt h.eq ?_) Denotes.nothing
  all_goals
    intro x
    simp only [CompareOp.Rel, iff_true, Bool.false_eq_true, iff_false]
    rintro ⟨h1, h2⟩
    order

/-! ## The loops over the comparisons -/

/-- All variables of the set are in the context. -/
def WhitelistOk (ls : List Leaf) (whitelist : List Nat) : Prop :=
  ∀ v ∈ whitelist, ∃ l, ls[v]? = some l

theorem WhitelistOk.grow {ls' : List Leaf} {whitelist : List Nat} (h : WhitelistOk ls whitelist)
    (hpre : ls <+: ls') : WhitelistOk ls' whitelist := by
  intro v hv
  obtain ⟨l, hl⟩ := h v hv
  exact ⟨l, getElem?_grow hpre hl⟩

theorem WhitelistOk.append {whitelist whitelist' : List Nat} (h : WhitelistOk ls whitelist)
    (h' : WhitelistOk ls whitelist') : WhitelistOk ls (whitelist ++ whitelist') :=
  List.forall_mem_append.mpr ⟨h, h'⟩

variable {self : Methods}

theorem compareVars_spec (hm : LeafMethods self) (hg : Good ls) (p : JsString) {v : Value}
    (hv : v.IsScalar) :
    Runs (self.compareVars (.exp (.ofParam p)) v) ls fun vars ls' =>
      CompareVars ls' p v vars.1 vars.2.1 vars.2.2 := by
  unfold Methods.compareVars
  refine Runs.bind (getVar_spec hm hg (l := .compare p .eq v) hv) fun eq ls₁ _ hg₁ heq => ?_
  refine Runs.bind (getVar_spec hm hg₁ (l := .compare p .gt v) hv) fun gt ls₂ h₂ hg₂ hgt => ?_
  refine Runs.bind (getVar_spec hm hg₂ (l := .compare p .lt v) hv) fun lt ls₃ h₃ hg₃ hlt => ?_
  exact Runs.pure hg₃
    ⟨getElem?_grow (h₂.trans h₃) heq, getElem?_grow h₃ hgt, hlt⟩

theorem allowThird_ok {p : JsString} {v : Value} {eq gt lt : Nat}
    (h : CompareVars ls p v eq gt lt) {whitelist : List Nat} (hw : WhitelistOk ls whitelist) :
    WhitelistOk ls (Methods.allowThird whitelist eq gt lt) := by
  unfold Methods.allowThird
  split
  · rename_i o ho
    have hmem : o ∈ [lt, eq, gt] := List.mem_of_mem_filter (ho ▸ List.mem_singleton.mpr rfl)
    refine hw.append (List.forall_mem_singleton.mpr ?_)
    simp only [List.mem_cons, List.not_mem_nil, or_false] at hmem
    obtain rfl | rfl | rfl := hmem
    · exact ⟨_, h.lt⟩
    · exact ⟨_, h.eq⟩
    · exact ⟨_, h.gt⟩
  · exact hw

/-- The values of a group in strictly increasing order. -/
theorem dcValues_spec (hm : LeafMethods self) (p : JsString) (vs : List Value) :
    ∀ (earlier : List Value) (whitelist : List Nat) (ls : List Leaf), Good ls →
      WhitelistOk ls whitelist → (∀ v ∈ vs, v.IsScalar) → (∀ w ∈ earlier, w.IsScalar) →
      (earlier ++ vs).Pairwise (fun w v => w.rank < v.rank) →
      Runs (self.dcValues (.exp (.ofParam p)) earlier whitelist vs) ls fun r ls' =>
        Impossible ls' r.1 ∧ WhitelistOk ls' r.2 := by
  induction vs with
  | nil =>
      intro earlier whitelist ls hg hw _ _ _
      exact Runs.pure hg ⟨Denotes.nothing, hw⟩
  | cons v vs ih =>
      intro earlier whitelist ls hg hw hvs hearlier hsorted
      unfold Methods.dcValues
      have hv := hvs v (List.mem_cons_self ..)
      refine Runs.bind (compareVars_spec hm hg p hv) fun vars ls₁ h₁ hg₁ hvars => ?_
      obtain ⟨eq, gt, lt⟩ := vars
      have hpairs : Runs (earlier.mapM fun w => do
          let vars2 ← self.compareVars (.exp (.ofParam p)) w
          pure (Methods.ordered eq gt lt vars2.1 vars2.2.1 vars2.2.2)) ls₁ fun pairs ls' =>
            List.Forall₂ (fun _ ms => Impossible ls' ms) earlier pairs := by
        refine @Runs.mapM _ _ _ (fun _ ms ls => Impossible ls ms)
          (fun _ _ _ _ h hpre => h.grow hpre) _ _ hg₁ fun w hw ls' hpre hg' => ?_
        refine Runs.bind (compareVars_spec hm hg' p (hearlier w hw)) fun vars2 ls₂ h₂ hg₂ hvars2 => ?_
        refine Runs.pure hg₂ (ordered_impossible (hvars.grow (hpre.trans h₂)) hvars2 ?_)
        exact (List.pairwise_append.mp hsorted).2.2 w hw v (List.mem_cons_self ..)
      refine Runs.bind hpairs fun pairs ls₂ h₂ hg₂ hpairs => ?_
      have hvars₂ := hvars.grow h₂
      refine Runs.bind (ih (earlier ++ [v]) _ ls₂ hg₂
        (allowThird_ok hvars₂ (hw.grow (h₁.trans h₂)))
        (fun w hw => hvs w (List.mem_cons_of_mem _ hw)) ?_ (by simpa using hsorted))
        fun r ls₃ h₃ hg₃ hr => ?_
      · intro w hw
        rcases List.mem_append.mp hw with hw | hw
        · exact hearlier w hw
        · exact List.mem_singleton.mp hw ▸ hv
      · obtain ⟨rest, whitelist'⟩ := r
        refine Runs.pure hg₃ ⟨?_, hr.2⟩
        have hflat : Impossible ls₂ pairs.flatten :=
          (Denotes.flatten hpairs).congr fun row => by simp
        have hhere : Impossible ls₂ (Methods.trichotomy eq gt lt ++ pairs.flatten) :=
          (trichotomy_impossible hvars₂).append hflat
        exact Impossible.append (Denotes.grow hhere h₃) hr.1

/-! ## Groups of clauses -/

theorem nodup_eraseDups {α : Type} [DecidableEq α] (xs : List α) : xs.eraseDups.Nodup := by
  induction h : xs.length using Nat.strong_induction_on generalizing xs with
  | _ n ih =>
      cases xs with
      | nil => simp
      | cons x xs =>
          rw [List.eraseDups_cons, List.nodup_cons, List.mem_eraseDups]
          refine ⟨by simp, ih _ ?_ _ rfl⟩
          have hle := List.length_filter_le (fun y => !y == x) xs
          rw [← h, List.length_cons]
          omega

section

variable {K α : Type} [DecidableEq K]

theorem groupStep_map (item : K × α) (items : K → List α) {keys : List K} (hk : keys.Nodup) :
    Methods.groupStep (keys.map fun k => (k, items k)) item
      = if item.1 ∈ keys then
          keys.map fun k => (k, if k = item.1 then items k ++ [item.2] else items k)
        else keys.map (fun k => (k, items k)) ++ [(item.1, [item.2])] := by
  induction keys with
  | nil => rfl
  | cons k keys ih =>
      obtain ⟨hnot, hk⟩ := List.nodup_cons.mp hk
      specialize ih hk
      unfold Methods.groupStep at ih ⊢
      rw [List.map_cons, List.findIdx?_cons]
      by_cases heq : k = item.1
      · subst heq
        have hrest : ∀ k' ∈ keys, (if k' = item.1 then items k' ++ [item.2] else items k')
            = items k' := by
          intro k' hk'
          exact if_neg fun heq => hnot (by rwa [heq] at hk')
        simpa using hrest
      · simp only [heq, decide_false, Bool.false_eq_true, if_false, List.mem_cons, Ne.symm heq,
          false_or, List.map_cons]
        split_ifs at ih ⊢ with hmem
        · cases hfind : (keys.map fun k => (k, items k)).findIdx? fun g => decide (g.1 = item.1) <;>
            rw [hfind] at ih <;> exact congrArg _ ih
        · cases hfind : (keys.map fun k => (k, items k)).findIdx? fun g => decide (g.1 = item.1) <;>
            rw [hfind] at ih <;> exact congrArg _ ih

/-- The items of each key in their order, the keys in the order of their first items. -/
theorem groupBy_eq (items : List (K × α)) :
    Methods.groupBy items = (items.map (·.1)).eraseDups.map fun k =>
      (k, (items.filter fun item => decide (item.1 = k)).map (·.2)) := by
  induction items using List.reverseRecOn with
  | nil => rfl
  | append_singleton items item ih =>
      rw [Methods.groupBy, List.foldl_append, ← Methods.groupBy, ih, List.foldl_cons,
        List.foldl_nil, groupStep_map item _ (nodup_eraseDups _), List.map_append,
        List.eraseDups_append]
      by_cases hmem : item.1 ∈ items.map (·.1)
      · have hnew : ([item].map (·.1)).removeAll (items.map (·.1)) = [] := by
          simpa [List.removeAll] using hmem
        rw [if_pos (List.mem_eraseDups.mpr hmem), hnew]
        simp only [List.eraseDups_nil, List.append_nil]
        refine List.map_congr_left fun k _ => ?_
        by_cases heq : item.1 = k
        · simp [List.filter_append, heq]
        · simp [List.filter_append, heq, Ne.symm heq]
      · have hnew : ([item].map (·.1)).removeAll (items.map (·.1)) = [item.1] := by
          simpa [List.removeAll] using hmem
        rw [if_neg fun h => hmem (List.mem_eraseDups.mp h), hnew, List.map_append]
        congr 1
        · refine List.map_congr_left fun k hk => ?_
          have hne : item.1 ≠ k := fun h => hmem (h ▸ List.mem_eraseDups.mp hk)
          simp [List.filter_append, hne]
        · have hnone : items.filter (fun item' => decide (item'.1 = item.1)) = [] := by
            refine List.filter_eq_nil_iff.mpr fun item' h' heq => hmem ?_
            exact List.mem_map.mpr ⟨item', h', of_decide_eq_true heq⟩
          simp [List.filter_append, hnone, List.eraseDups_cons]

end

theorem groupByLhs_eq {self : Methods} {clauses : List Clause}
    {key : Clause → Methods.LhsKey} (h : ∀ c ∈ clauses, self.lhsKey c = .ok (key c)) :
    self.groupByLhs clauses = .ok ((clauses.map key).eraseDups.map fun k =>
      clauses.filter fun c => decide (key c = k)) := by
  have hkeyed : (clauses.mapM fun c => do
      let key ← self.lhsKey c
      pure (key, c) : Except JsError _) = .ok (clauses.map fun c => (key c, c)) := by
    induction clauses with
    | nil => rfl
    | cons c cs ih =>
        rw [List.mapM_cons, h c (List.mem_cons_self ..),
          ih fun c hc => h c (List.mem_cons_of_mem _ hc)]
        rfl
  unfold Methods.groupByLhs
  rw [hkeyed]
  change Except.ok _ = _
  rw [groupBy_eq, List.map_map, List.map_map]
  simp only [Function.comp_def, List.filter_map, List.map_map, List.map_id']

theorem valueBefore_iff {v w : Value} : Methods.valueBefore v w ↔ v.rank ≤ w.rank := by
  rw [Methods.valueBefore, Ne, Value.compare_eq_gt, not_lt]

instance : Std.Total Methods.valueBefore :=
  ⟨fun v w => by simpa only [valueBefore_iff] using le_total v.rank w.rank⟩

instance : IsTrans Value Methods.valueBefore :=
  ⟨fun _ _ _ huv hvw => valueBefore_iff.mpr
    ((valueBefore_iff.mp huv).trans (valueBefore_iff.mp hvw))⟩

/-- Distinct values that are no booleans are in strictly increasing order once sorted. -/
theorem sorted_strictly {values : List Value} (hs : ∀ v ∈ values, v.IsScalar) :
    (values.eraseDups.insertionSort Methods.valueBefore).Pairwise
      fun v w => v.rank < w.rank := by
  have hsorted := List.pairwise_insertionSort Methods.valueBefore values.eraseDups
  have hnodup : (values.eraseDups.insertionSort Methods.valueBefore).Nodup :=
    (List.perm_insertionSort _ _).nodup_iff.mpr (nodup_eraseDups _)
  have hmem : ∀ v ∈ values.eraseDups.insertionSort Methods.valueBefore, v.IsScalar := by
    intro v hv
    rw [List.mem_insertionSort, List.mem_eraseDups] at hv
    exact hs v hv
  refine (hsorted.and hnodup).imp_of_mem ?_
  rintro v w hv hw ⟨hle, hne⟩
  refine lt_of_le_of_ne (valueBefore_iff.mp hle) fun heq => hne ?_
  exact (hmem v hv).eq_of_rank_eq (hmem w hw) heq

/-- A group of comparisons of one parameter. -/
def CompareGroup (g : List Clause) : Prop :=
  (∃ p, (g.head?.map Methods.lhsOf).getD (.exp Expr.null) = .exp (.ofParam p)) ∧
    ∀ v ∈ g.filterMap Methods.rhsOf, v.IsScalar

theorem lhsKey_compare (hm : LeafMethods self) (p : JsString) (op : CompareOp) (v : Value) :
    self.lhsKey (Leaf.compare p op v).clause
      = .ok ⟨[.exp (.ofParam p)], .ofParam p⟩ := by
  unfold Methods.lhsKey
  rw [hm.expression (.compare p op v)]
  rfl

theorem groupByLhs_compareGroup (hm : LeafMethods self) {input : List Clause}
    (h : ∀ c ∈ input, ∃ p op v, c = (Leaf.compare p op v).clause ∧ v.IsScalar) :
    ∃ groups, self.groupByLhs input = .ok groups ∧ ∀ g ∈ groups, CompareGroup g := by
  have hkeys : ∀ c ∈ input,
      self.lhsKey c = .ok ⟨[.exp (expOf (Methods.lhsOf c))], expOf (Methods.lhsOf c)⟩ := by
    intro c hc
    obtain ⟨p, op, v, rfl, _⟩ := h c hc
    exact lhsKey_compare hm p op v
  refine ⟨_, groupByLhs_eq hkeys, fun g hg => ?_⟩
  obtain ⟨k, hk, rfl⟩ := List.mem_map.mp hg
  obtain ⟨c, hc, rfl⟩ := List.mem_map.mp (List.mem_eraseDups.mp hk)
  refine ⟨?_, fun v hv => ?_⟩
  · have hmem : c ∈ input.filter fun d => decide
        ((⟨[.exp (expOf (Methods.lhsOf d))], expOf (Methods.lhsOf d)⟩ : Methods.LhsKey)
          = ⟨[.exp (expOf (Methods.lhsOf c))], expOf (Methods.lhsOf c)⟩) :=
      List.mem_filter.mpr ⟨hc, decide_eq_true rfl⟩
    obtain ⟨d, rest, hd⟩ := List.exists_cons_of_ne_nil (List.ne_nil_of_mem hmem)
    have hd' : d ∈ input := (List.mem_filter.mp (hd ▸ List.mem_cons_self ..)).1
    obtain ⟨p, op, v, rfl, _⟩ := h d hd'
    rw [hd]
    exact ⟨p, rfl⟩
  · obtain ⟨d, hd, hv⟩ := List.mem_filterMap.mp hv
    obtain ⟨p, op, w, rfl, hw⟩ := h d (List.mem_filter.mp hd).1
    cases hv
    exact hw

theorem dcComparisons_spec (hm : LeafMethods self) (groups : List (List Clause)) :
    ∀ (whitelist : List Nat) (ls : List Leaf), Good ls → WhitelistOk ls whitelist →
      (∀ g ∈ groups, CompareGroup g) →
      Runs (self.dcComparisons whitelist groups) ls fun r ls' =>
        Impossible ls' r.1 ∧ WhitelistOk ls' r.2 := by
  induction groups with
  | nil =>
      intro whitelist ls hg hw _
      exact Runs.pure hg ⟨Denotes.nothing, hw⟩
  | cons clauses groups ih =>
      intro whitelist ls hg hw hgroups
      obtain ⟨⟨p, hp⟩, hscalar⟩ := hgroups clauses (List.mem_cons_self ..)
      unfold Methods.dcComparisons
      have hvalues : ∀ v ∈ (clauses.filterMap Methods.rhsOf).eraseDups.insertionSort
          Methods.valueBefore, v.IsScalar := by
        intro v hv
        rw [List.mem_insertionSort, List.mem_eraseDups] at hv
        exact hscalar v hv
      rw [hp]
      refine Runs.bind (dcValues_spec hm p _ [] whitelist ls hg hw hvalues (by simp)
        (by simpa using sorted_strictly hscalar)) fun here ls₁ _ hg₁ hhere => ?_
      refine Runs.bind (ih here.2 ls₁ hg₁ hhere.2
        fun g hg => hgroups g (List.mem_cons_of_mem _ hg)) fun rest ls₂ h₂ hg₂ hrest => ?_
      exact Runs.pure hg₂ ⟨Impossible.append (Denotes.grow hhere.1 h₂) hrest.1, hrest.2⟩

/-! ## The loop over the nullables -/

theorem nullConditions_impossible {v n : Nat} {l : Leaf} (hl : ¬ l.IsNullTest)
    (hv : ls[v]? = some l) (hn : ls[n]? = some (.isNull l.name)) :
    Impossible ls (Methods.nullConditions v [n]) := by
  have hnull : ∀ row : Row, (Leaf.isNull l.name).truth row.value = some true
      ↔ l.truth row.value = none := by
    intro row
    rw [Leaf.truth_eq_none hl]
    change some (decide _) = some true ↔ _
    simp
  refine Impossible.cons (@cube_impossible ls [(n, .isNull l.name, 2), (v, l, 0), (v, l, 2)]
    ?_ ?_) ?_
  · simp [hn, hv, hl]
  · intro row
    simp only [List.forall_mem_cons, Leaf.Says, ne_eq, hnull]
    rintro ⟨h, hf, ht, _⟩
    cases htruth : l.truth row.value with
    | none => exact h htruth
    | some b => cases b <;> simp_all
  refine Impossible.cons (@cube_impossible ls [(n, .isNull l.name, 3), (v, l, 1)] ?_ ?_) ?_
  · simp [hn, hv, hl]
  · intro row
    simp only [List.forall_mem_cons, Leaf.Says, hnull]
    rintro ⟨h, hf, _⟩
    rw [h] at hf
    cases hf
  refine @cube_impossible ls [(n, .isNull l.name, 3), (v, l, 3)] ?_ ?_
  · simp [hn, hv, hl]
  · intro row
    simp only [List.forall_mem_cons, Leaf.Says, hnull]
    rintro ⟨h, ht, _⟩
    rw [h] at ht
    cases ht

/-- The device id is not null. -/
theorem idConditions_spec (hm : LeafMethods self) {v : Nat} {l : Leaf} (hv : ls[v]? = some l) :
    ∃ ids, self.idConditions v l.clause = .ok ids ∧ Impossible ls ids := by
  cases l with
  | param p => exact ⟨[], rfl, Denotes.nothing⟩
  | reversed op s p => exact ⟨[], rfl, Denotes.nothing⟩
  | compare p op w => exact ⟨[], rfl, Denotes.nothing⟩
  | isNull p =>
      simp only [Leaf.clause, Methods.idConditions]
      rw [show self.expression (.exp (.ofParam p)) = .ok (.ofParam p) from hm.expression (.param p)]
      refine ⟨_, rfl, ?_⟩
      split_ifs with hid
      · refine @cube_impossible ls [(v, .isNull p, 3)] (by simpa using hv) fun row => ?_
        simp only [List.forall_mem_cons, Leaf.Says, Leaf.truth, Option.some.injEq,
          decide_eq_true_eq]
        rintro ⟨hnone, _⟩
        simp only [Expr.ofParam, Expr.app.injEq, List.cons.injEq, Expr.lit.injEq,
          Option.some.injEq, Value.str.injEq, true_and, and_true] at hid
        obtain rfl | rfl := hid
        · exact row.deviceId hnone
        · exact row.id hnone
      · exact Denotes.nothing

/-- The variables of a set are null tests. -/
def NullVars (ls : List Leaf) (vs : List Nat) : Prop := ∀ v ∈ vs, ∃ p, ls[v]? = some (.isNull p)

theorem NullVars.grow {ls' : List Leaf} {vs : List Nat} (h : NullVars ls vs) (hpre : ls <+: ls') :
    NullVars ls' vs := by
  intro v hv
  obtain ⟨p, hp⟩ := h v hv
  exact ⟨p, getElem?_grow hpre hp⟩

theorem NullVars.whitelistOk {vs : List Nat} (h : NullVars ls vs) : WhitelistOk ls vs := by
  intro v hv
  obtain ⟨p, hp⟩ := h v hv
  exact ⟨_, hp⟩

theorem missing_subset (set : List Nat) (ns : List Nat) : Methods.missing set ns ⊆ ns := by
  have hfold : ∀ (ms acc : List Nat), ms ⊆ ns → acc ⊆ ns →
      ms.foldl (fun acc n => if set.contains n || acc.contains n then acc else acc ++ [n]) acc
        ⊆ ns := by
    intro ms
    induction ms with
    | nil => exact fun acc _ hacc => hacc
    | cons m ms ih =>
        intro acc hms hacc
        obtain ⟨hm, hms⟩ := List.cons_subset.mp hms
        refine ih _ hms ?_
        dsimp only
        split
        · exact hacc
        · exact List.append_subset.mpr ⟨hacc, List.cons_subset.mpr ⟨hm, List.nil_subset _⟩⟩
  exact hfold ns [] (List.Subset.refl _) (List.nil_subset _)

/-- A pass appends null tests to the whitelist, and none for null tests. -/
theorem dcNullPass_spec (hm : LeafMethods self) (todo : List Nat) :
    ∀ (whitelist : List Nat) (ls : List Leaf), Good ls → WhitelistOk ls todo →
      Runs (self.dcNullPass whitelist todo) ls fun r ls' =>
        Impossible ls' r.1 ∧ ∃ added, r.2 = whitelist ++ added ∧ NullVars ls' added ∧
          (NullVars ls todo → added = []) := by
  induction todo with
  | nil =>
      intro whitelist ls hg _
      exact Runs.pure hg ⟨Denotes.nothing, [], by simp, by simp [NullVars], fun _ => rfl⟩
  | cons v todo ih =>
      intro whitelist ls hg htodo
      obtain ⟨⟨l, hv⟩, htodo⟩ := List.forall_mem_cons.mp htodo
      unfold Methods.dcNullPass
      refine Runs.get_bind ?_
      rw [getClause_ofLeaves hv]
      dsimp only
      by_cases hl : l.IsNullTest
      · obtain ⟨p, rfl⟩ : ∃ p, l = .isNull p := by
          cases l <;> first | exact ⟨_, rfl⟩ | exact absurd hl id
        refine Runs.bind (isNullVars_isNull hm hg p) fun ns ls₁ h₁ hg₁ hns => ?_
        subst hns
        obtain ⟨ids, hids, hidsImp⟩ := idConditions_spec hm (getElem?_grow h₁ hv)
        refine Runs.lift_bind hids ?_
        refine Runs.bind (ih _ ls₁ hg₁ (WhitelistOk.grow htodo h₁)) fun r ls₂ h₂ hg₂ hr => ?_
        obtain ⟨hrest, added, hadded, hnull, hnone⟩ := hr
        refine Runs.pure hg₂ ⟨Impossible.append (Denotes.grow hidsImp h₂) hrest, added, ?_, hnull,
          fun h => hnone ?_⟩
        · rw [hadded]
          simp [Methods.missing]
        · exact NullVars.grow (List.forall_mem_cons.mp h).2 h₁
      · refine Runs.bind (isNullVars_spec hm hg hl) fun ns ls₁ h₁ hg₁ hns => ?_
        obtain ⟨n, rfl, hn⟩ := hns
        have hv₁ := getElem?_grow h₁ hv
        obtain ⟨ids, hids, hidsImp⟩ := idConditions_spec hm hv₁
        refine Runs.lift_bind hids ?_
        refine Runs.bind (ih _ ls₁ hg₁ (WhitelistOk.grow htodo h₁)) fun r ls₂ h₂ hg₂ hr => ?_
        obtain ⟨hrest, added, hadded, hnull, _⟩ := hr
        have hhere : Impossible ls₁ (Methods.nullConditions v [n] ++ ids) :=
          Impossible.append (nullConditions_impossible hl hv₁ hn) hidsImp
        refine Runs.pure hg₂ ⟨Impossible.append (Denotes.grow hhere h₂) hrest,
          Methods.missing whitelist [n] ++ added, ?_, ?_, ?_⟩
        · rw [hadded, List.append_assoc]
        · refine List.forall_mem_append.mpr ⟨fun m hm => ?_, hnull⟩
          rw [List.mem_singleton.mp (missing_subset _ _ hm)]
          exact ⟨_, getElem?_grow h₂ hn⟩
        · intro h
          obtain ⟨p, hp⟩ := (List.forall_mem_cons.mp h).1
          rw [hv] at hp
          cases hp
          exact absurd trivial hl

/-- The second pass goes through null tests only and is the last. -/
theorem dcNulls_spec (hm : LeafMethods self) {rounds : Nat} (hrounds : 2 ≤ rounds)
    (todo whitelist : List Nat) (hg : Good ls) (htodo : WhitelistOk ls todo) :
    Runs (self.dcNulls rounds todo whitelist) ls fun r ls' => Impossible ls' r.1 := by
  obtain ⟨rounds, rfl⟩ : ∃ r, rounds = r + 2 := ⟨rounds - 2, by omega⟩
  have hend : ∀ (rounds : Nat) (todo whitelist : List Nat) (ls : List Leaf), Good ls →
      NullVars ls todo → Runs (self.dcNulls (rounds + 1) todo whitelist) ls
        fun r ls' => Impossible ls' r.1 := by
    intro rounds todo whitelist ls hg hnull
    cases todo with
    | nil => exact Runs.pure hg Denotes.nothing
    | cons v todo =>
        unfold Methods.dcNulls
        refine Runs.bind (dcNullPass_spec hm _ _ _ hg hnull.whitelistOk)
          fun r ls₁ _ hg₁ hr => ?_
        obtain ⟨hhere, added, hadded, _, hnone⟩ := hr
        dsimp only
        rw [hadded, hnone hnull, List.append_nil, List.drop_length]
        have hlast : self.dcNulls rounds [] whitelist = pure ([], whitelist) := by
          cases rounds <;> rfl
        rw [hlast, pure_bind]
        exact Runs.pure hg₁ (Impossible.append hhere Denotes.nothing)
  cases todo with
  | nil => exact Runs.pure hg Denotes.nothing
  | cons v todo =>
      unfold Methods.dcNulls
      refine Runs.bind (dcNullPass_spec hm _ _ _ hg htodo) fun r ls₁ _ hg₁ hr => ?_
      obtain ⟨hhere, added, hadded, hnull, _⟩ := hr
      dsimp only
      rw [hadded, List.drop_left]
      refine Runs.bind (hend rounds added _ ls₁ hg₁ hnull) fun rest ls₂ h₂ hg₂ hrest => ?_
      exact Runs.pure hg₂ (Impossible.append (Denotes.grow hhere h₂) hrest)

/-! ## The set -/

theorem isCompare_clause {l : Leaf} (h : Methods.isCompare l.clause = true) :
    ∃ p op v, l = .compare p op v := by
  cases l with
  | compare p op v => exact ⟨p, op, v, rfl⟩
  | param | reversed | isNull => cases h

theorem isLike_clause (l : Leaf) : Methods.isLike l.clause = false := by
  cases l <;> rfl

theorem whitelistOk_of_varsOk {ms : Minterms} (h : VarsOk ls ms) :
    WhitelistOk ls (ms.flatten.map (· / 4)).eraseDups := by
  intro v hv
  rw [List.mem_eraseDups] at hv
  obtain ⟨i, hi, rfl⟩ := List.mem_map.mp hv
  obtain ⟨m, hm, hi⟩ := List.mem_flatten.mp hi
  obtain ⟨l, hl, _⟩ := litOk_iff.mp (varsOk_iff.mp h m hm i hi)
  exact ⟨l, hl⟩

/-- No row satisfies a don't-care. -/
theorem getDcSet_spec (E : Env) (hm : LeafMethods self) (hrounds : 2 ≤ self.rounds) (hg : Good ls)
    {ms : Minterms} (hms : VarsOk ls ms) :
    Runs (self.getDcSet E ms) ls fun dc ls' => Impossible ls' dc := by
  unfold Methods.getDcSet
  have hw := whitelistOk_of_varsOk hms
  generalize (ms.flatten.map (· / 4)).eraseDups = whitelist at hw
  have hclauses : ∀ c ∈ whitelist.filterMap (ofLeaves ls).getClause, ∃ l ∈ ls, c = l.clause := by
    intro c hc
    obtain ⟨v, hv, hc⟩ := List.mem_filterMap.mp hc
    obtain ⟨l, hl⟩ := hw v hv
    rw [getClause_ofLeaves hl] at hc
    exact ⟨l, List.mem_of_getElem? hl, (Option.some.inj hc).symm⟩
  have hcompares : ∀ c ∈ (whitelist.filterMap (ofLeaves ls).getClause).filter Methods.isCompare,
      ∃ p op v, c = (Leaf.compare p op v).clause ∧ v.IsScalar := by
    intro c hc
    obtain ⟨hc, hcompare⟩ := List.mem_filter.mp hc
    obtain ⟨l, hl, rfl⟩ := hclauses c hc
    obtain ⟨p, op, v, rfl⟩ := isCompare_clause hcompare
    exact ⟨p, op, v, rfl, hg.scalar _ hl⟩
  have hlikes : (whitelist.filterMap (ofLeaves ls).getClause).filter Methods.isLike = [] := by
    refine List.filter_eq_nil_iff.mpr fun c hc => ?_
    obtain ⟨l, _, rfl⟩ := hclauses c hc
    simp [isLike_clause]
  unfold Methods.clausesOf
  refine Runs.get_bind ?_
  obtain ⟨groups, hgroups, hgroup⟩ := groupByLhs_compareGroup hm hcompares
  refine Runs.lift_bind hgroups ?_
  refine Runs.bind (dcComparisons_spec hm _ whitelist ls hg hw hgroup) fun r ls₁ _ hg₁ hr => ?_
  obtain ⟨hcomparisons, hw₁⟩ := hr
  dsimp only
  rw [hlikes]
  refine Runs.lift_bind (a := []) rfl ?_
  change Runs (pure [] >>= _) ls₁ _
  rw [pure_bind]
  refine Runs.bind (dcNulls_spec hm hrounds _ _ hg₁ hw₁) fun nulls ls₂ h₂ hg₂ hnulls => ?_
  have hcompares₂ : Impossible ls₂ (r.1 ++ ([] : List Minterms).flatten) :=
    Denotes.grow (Impossible.append hcomparisons Denotes.nothing) h₂
  exact Runs.pure hg₂ (Impossible.subset (Impossible.append hcompares₂ hnulls)
    fun m hm => List.mem_of_mem_filter hm)

end

end GenieAcs
