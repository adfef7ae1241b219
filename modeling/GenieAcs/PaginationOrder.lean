import GenieAcs.Pagination
import GenieAcs.SynthSound

/-!
# The cut of a page follows the sort order

`getCover` turns a minterm into a cover that contains it and, with a row, all
rows that do not come before it. The rows of the query that the covers of the
gaps leave out are therefore a first part of the sorted query.
-/

namespace GenieAcs

open Cover

/-! ## The order of rows -/

/-- The place of a value in an ascending order: null first. -/
def sortRank : Option Value → WithBot (Lex (ℚ ⊕ List ℕ))
  | none => ⊥
  | some v => (v.rank : WithBot (Lex (ℚ ⊕ List ℕ)))

/-- Row `r` comes before row `s` by one sort key. -/
def keyBefore (param : JsString) (sort : ℤ) (r s : Row) : Prop :=
  if 0 < sort then sortRank (r.value param) < sortRank (s.value param)
  else sortRank (s.value param) < sortRank (r.value param)

/-- Row `r` comes before row `s` in the lexicographic order of the keys. -/
def rowBefore : SortKeys → Row → Row → Prop
  | [], _, _ => False
  | (param, sort) :: allSort, r, s => keyBefore param sort r s
      ∨ sortRank (r.value param) = sortRank (s.value param) ∧ rowBefore allSort r s

/-- With a row the set contains all rows that do not come before it. -/
def Final (sort : SortKeys) (U : Row → Prop) : Prop := ∀ r s, U r → ¬ rowBefore sort s r → U s

theorem keyBefore_trichotomy (param : JsString) (sort : ℤ) (r s : Row) :
    keyBefore param sort r s ∨ sortRank (r.value param) = sortRank (s.value param)
      ∨ keyBefore param sort s r := by
  unfold keyBefore
  split_ifs
  · exact lt_trichotomy _ _
  · obtain h | h | h := lt_trichotomy (sortRank (s.value param)) (sortRank (r.value param))
    · exact Or.inl h
    · exact Or.inr (Or.inl h.symm)
    · exact Or.inr (Or.inr h)

theorem compareTruth_congr {op : Op} {v w : Option Value} (c : Value)
    (h : sortRank v = sortRank w) : compareTruth op v (some c) = compareTruth op w (some c) := by
  cases v with
  | none =>
      cases w with
      | none => rfl
      | some w => exact absurd h (WithBot.bot_ne_coe)
  | some v =>
      cases w with
      | none => exact absurd h (WithBot.coe_ne_bot)
      | some w =>
          have hrank : v.rank = w.rank := WithBot.coe_injective h
          have hcompare : v.compare c = w.compare c := by
            rcases hw : w.compare c with _ | _ | _
            · rwa [Value.compare_eq_lt, hrank, ← Value.compare_eq_lt]
            · rwa [Value.compare_eq_eq, hrank, ← Value.compare_eq_eq]
            · rwa [Value.compare_eq_gt, hrank, ← Value.compare_eq_gt]
          rw [compareTruth, compareTruth, hcompare]

/-! ## One sort key -/

/-- `Cov` holds of what comes after the rows of `Next` by the key, and `Next`
goes by the value of the key. -/
structure Bounds (param : JsString) (sort : ℤ) (Cov Next : Row → Prop) : Prop where
  final : ∀ r s, Cov r → ¬ keyBefore param sort s r → Cov s
  same : ∀ r s, Next r → sortRank (r.value param) = sortRank (s.value param) → Next s
  after : ∀ r s, Next r → keyBefore param sort r s → Cov s

namespace Bounds

variable {param : JsString} {sort : ℤ} {Cov Next Cov' Next' : Row → Prop}

theorem trivial : Bounds param sort (fun _ => True) fun _ => True :=
  ⟨fun _ _ _ _ => True.intro, fun _ _ _ _ => True.intro, fun _ _ _ _ => True.intro⟩

theorem and (h : Bounds param sort Cov Next) (h' : Bounds param sort Cov' Next') :
    Bounds param sort (fun r => Cov r ∧ Cov' r) fun r => Next r ∧ Next' r :=
  ⟨fun r s hc hn => ⟨h.final r s hc.1 hn, h'.final r s hc.2 hn⟩,
    fun r s hc he => ⟨h.same r s hc.1 he, h'.same r s hc.2 he⟩,
    fun r s hc hb => ⟨h.after r s hc.1 hb, h'.after r s hc.2 hb⟩⟩

/-- A condition on the value of the key that nothing needs to come after. -/
theorem next (h : ∀ r s : Row, Next r → sortRank (r.value param) = sortRank (s.value param) → Next s) :
    Bounds param sort (fun _ => True) Next :=
  ⟨fun _ _ _ _ => True.intro, h, fun _ _ _ _ => True.intro⟩

end Bounds

/-- The literals of `cov` and of `nextCov` say `Cov` and `Next` of a row. -/
structure Bounded (ls : List Leaf) (param : JsString) (sort : ℤ) (m cov nextCov : Minterm)
    (Cov Next : Row → Prop) : Prop where
  bounds : Bounds param sort Cov Next
  cov_ok : ∀ i ∈ cov, LitOk ls i
  next_subset : nextCov ⊆ m
  cov_sat : ∀ row ν, Agrees row ν ls → (CubeSat (Holds ν) cov ↔ Cov row)
  next_sat : ∀ row ν, Agrees row ν ls → (CubeSat (Holds ν) nextCov ↔ Next row)

section

variable {ls ls' : List Leaf} {param : JsString} {sort : ℤ} {self : Methods}

theorem Bounded.grow {m cov nextCov : Minterm} {Cov Next : Row → Prop}
    (h : Bounded ls param sort m cov nextCov Cov Next) (hpre : ls <+: ls') :
    Bounded ls' param sort m cov nextCov Cov Next :=
  ⟨h.bounds, fun i hi => (h.cov_ok i hi).grow hpre, h.next_subset,
    fun row ν ha => h.cov_sat row ν (ha.shrink hpre),
    fun row ν ha => h.next_sat row ν (ha.shrink hpre)⟩

theorem Bounded.nothing (m : Minterm) :
    Bounded ls param sort m [] [] (fun _ => True) fun _ => True :=
  ⟨Bounds.trivial, by simp, by simp, by simp, by simp⟩

theorem Bounded.append {m m' cov cov' next next' : Minterm} {Cov Next Cov' Next' : Row → Prop}
    (h : Bounded ls param sort m cov next Cov Next)
    (h' : Bounded ls param sort m' cov' next' Cov' Next') :
    Bounded ls param sort (m ++ m') (cov ++ cov') (next ++ next') (fun r => Cov r ∧ Cov' r)
      fun r => Next r ∧ Next' r := by
  refine ⟨h.bounds.and h'.bounds, List.forall_mem_append.mpr ⟨h.cov_ok, h'.cov_ok⟩,
    List.append_subset.mpr ⟨fun i hi => List.mem_append_left _ (h.next_subset hi),
      fun i hi => List.mem_append_right _ (h'.next_subset hi)⟩, fun row ν ha => ?_,
    fun row ν ha => ?_⟩
  · rw [cubeSat_append, h.cov_sat row ν ha, h'.cov_sat row ν ha]
  · rw [cubeSat_append, h.next_sat row ν ha, h'.next_sat row ν ha]

theorem isParam_ofParam (param p : JsString) :
    Methods.isParam param (.ofParam p) = decide (p = param) := by
  simp [Methods.isParam, Expr.ofParam, arg]

theorem cubeSat_singleton {ν : Nat → Bool} (i : Nat) :
    CubeSat (Holds ν) [i] ↔ Sat (Holds ν) [[i]] := by
  rw [sat_cons, or_iff_left sat_nil]

/-- A literal that only goes on to the next keys. -/
theorem Bounded.next {i : Nat} {l : Leaf} (hl : ls[i / 4]? = some l) (hname : ∀ r s : Row,
    sortRank (r.value param) = sortRank (s.value param) → l.truth r.value = l.truth s.value) :
    Bounded ls param sort [i] [] [i] (fun _ => True) (l.Says (i % 4)) := by
  refine ⟨Bounds.next fun r s hr he => ?_, by simp, List.Subset.refl _, by simp, fun row ν ha => ?_⟩
  · unfold Leaf.Says at hr ⊢
    rwa [← hname r s he]
  · rw [cubeSat_singleton, holds_div_mod ha hl]

theorem isNull_congr (r s : Row) (h : sortRank (r.value param) = sortRank (s.value param)) :
    (Leaf.isNull param).truth r.value = (Leaf.isNull param).truth s.value := by
  have hnull : ∀ v : Option Value, sortRank v = ⊥ ↔ v = none := by
    intro v
    cases v with
    | none => simp [sortRank]
    | some v => simp [sortRank]
  rw [Leaf.truth, Leaf.truth, Option.some.injEq, decide_eq_decide, ← hnull, ← hnull, h]

theorem compare_congr (op : CompareOp) (c : Value) (r s : Row)
    (h : sortRank (r.value param) = sortRank (s.value param)) :
    (Leaf.compare param op c).truth r.value = (Leaf.compare param op c).truth s.value :=
  compareTruth_congr c h

/-- A literal that bounds the key from the side the rows come from. -/
theorem boundsFrom_rank {op : CompareOp} {k : Nat} {c : Value} {row : Row}
    (hlit : (Leaf.compare param op c).Says k row) (hk : k < 4)
    (hb : Methods.boundsFrom sort op (decide (k = 1 ∨ k = 2)) = true) :
    (0 < sort → k % 2 = 1 → (c.rank : WithBot (Lex (ℚ ⊕ List ℕ))) ≤ sortRank (row.value param))
      ∧ (¬ 0 < sort → sortRank (row.value param) ≤ (c.rank : WithBot (Lex (ℚ ⊕ List ℕ)))) := by
  cases hrow : row.value param with
  | none =>
      have hnull : (Leaf.compare param op c).truth row.value = none :=
        (Leaf.truth_eq_none id row.value).mpr hrow
      refine ⟨fun _ hodd => ?_, fun _ => bot_le⟩
      unfold Leaf.Says at hlit
      rw [hnull] at hlit
      obtain rfl | rfl : k = 1 ∨ k = 3 := by omega
      · cases hlit
      · cases hlit
  | some x =>
      have htrue := @compare_true param op c row.value
      have hfalse := @compare_false param op c row.value
      simp only [hrow, Option.some.injEq, exists_eq_left'] at htrue hfalse
      have hnottrue : (Leaf.compare param op c).truth row.value ≠ some true ↔ ¬ op.Rel x c :=
        not_congr htrue
      have hnotfalse : (Leaf.compare param op c).truth row.value ≠ some false ↔ op.Rel x c := by
        rw [ne_eq, hfalse, not_not]
      simp only [sortRank, WithBot.coe_le_coe]
      have hrel : (k = 1 ∨ k = 2 → ¬ op.Rel x c) ∧ (k = 0 ∨ k = 3 → op.Rel x c) := by
        match k, hk with
        | 0, _ => exact ⟨by simp, fun _ => hnotfalse.mp hlit⟩
        | 1, _ => exact ⟨fun _ => hfalse.mp hlit, by simp⟩
        | 2, _ => exact ⟨fun _ => hnottrue.mp hlit, by simp⟩
        | 3, _ => exact ⟨by simp, fun _ => htrue.mp hlit⟩
      by_cases hneg : k = 1 ∨ k = 2
      · have hno := hrel.1 hneg
        cases op with
        | eq => simp [Methods.boundsFrom, hneg] at hb
        | gt =>
            have hsort : ¬ 0 < sort := by simpa [Methods.boundsFrom, hneg] using hb
            exact ⟨fun h => absurd h hsort, fun _ => not_lt.mp hno⟩
        | lt =>
            have hsort : 0 < sort := by simpa [Methods.boundsFrom, hneg] using hb
            exact ⟨fun _ _ => not_lt.mp hno, fun h => absurd hsort h⟩
      · have hyes := hrel.2 (by omega)
        cases op with
        | eq => exact ⟨fun _ _ => le_of_eq (Eq.symm hyes), fun _ => le_of_eq hyes⟩
        | gt =>
            have hsort : 0 < sort := by simpa [Methods.boundsFrom, hneg] using hb
            exact ⟨fun _ _ => le_of_lt hyes, fun h => absurd hsort h⟩
        | lt =>
            have hsort : ¬ 0 < sort := by simpa [Methods.boundsFrom, hneg] using hb
            exact ⟨fun h => absurd h hsort, fun _ => le_of_lt hyes⟩

/-- What comes strictly after a value by the key. -/
theorem bounds_after {op : CompareOp} {k : Nat} {c : Value} (hk : k < 4)
    (hodd : 0 < sort → k % 2 = 1)
    (hb : Methods.boundsFrom sort op (decide (k = 1 ∨ k = 2)) = true) :
    Bounds param sort
      (fun row => if 0 < sort then (c.rank : WithBot (Lex (ℚ ⊕ List ℕ))) < sortRank (row.value param)
        else sortRank (row.value param) < (c.rank : WithBot (Lex (ℚ ⊕ List ℕ))))
      ((Leaf.compare param op c).Says k) := by
  refine ⟨fun r s hr hns => ?_, fun r s hr he => ?_, fun r s hr hrs => ?_⟩
  · unfold keyBefore at hns
    split_ifs at hr hns ⊢ with hpos
    · exact hr.trans_le (not_lt.mp hns)
    · exact (not_lt.mp hns).trans_lt hr
  · unfold Leaf.Says at hr ⊢
    rwa [← compare_congr op c r s he]
  · obtain ⟨hlow, hhigh⟩ := boundsFrom_rank hr hk hb
    unfold keyBefore at hrs
    split_ifs at hrs ⊢ with hpos
    · exact (hlow hpos (hodd hpos)).trans_lt hrs
    · exact hrs.trans_le (hhigh hpos)

theorem coverLiteral_spec (hm : LeafMethods self) (hg : Good ls) {i : Nat} (hi : LitOk ls i) :
    Runs (self.coverLiteral param sort i) ls fun r ls' =>
      ∃ Cov Next, Bounded ls' param sort [i] r.1 r.2 Cov Next := by
  obtain ⟨l, hl, hok⟩ := litOk_iff.mp hi
  have hparam : ∀ p, self.expression (.exp (.ofParam p)) = .ok (.ofParam p) :=
    fun p => hm.expression (.param p)
  have hlt : i % 4 < 4 := Nat.mod_lt _ (by omega)
  unfold Methods.coverLiteral
  apply Runs.get_bind
  rw [getClause_ofLeaves hl]
  cases l with
  | param p => exact Runs.pure hg ⟨_, _, Bounded.nothing _⟩
  | reversed op s p => exact Runs.pure hg ⟨_, _, Bounded.nothing _⟩
  | isNull p =>
      apply Runs.lift_bind (hparam p)
      rw [isParam_ofParam]
      by_cases hp : p = param
      · subst hp
        have hk : 2 ≤ i % 4 := hok trivial
        have hnext := @Bounded.next ls p sort i _ hl isNull_congr
        rw [if_neg (by simp)]
        by_cases hlast : sort < 0 ∧ i % 2 = 1
        · rw [if_pos hlast]
          -- the parameter is null, and nothing comes after that in a descending order
          refine Runs.pure hg ⟨fun _ => False, _, ?_, ?_, hnext.next_subset, ?_, hnext.next_sat⟩
          · refine ⟨fun _ _ h _ => h, hnext.bounds.same, fun r s hr hrs => ?_⟩
            have hthree : i % 4 = 3 := by omega
            rw [hthree] at hr
            have hnull : r.value p = none := of_decide_eq_true (Option.some.inj hr)
            unfold keyBefore at hrs
            rw [if_neg (by omega), hnull] at hrs
            exact not_lt_bot hrs
          · have hflip : Cover.flip i = literal (i / 4) 2 := by
              unfold Cover.flip literal
              rw [if_pos hlast.2]
              omega
            rw [hflip]
            simpa using ⟨hi, litOk_literal hl (by omega) fun _ => le_rfl⟩
          · intro row ν _
            simp [holds_flip]
        · rw [if_neg hlast]
          exact Runs.pure hg ⟨_, _, hnext⟩
      · rw [if_pos (by simp [hp])]
        exact Runs.pure hg ⟨_, _, Bounded.nothing _⟩
  | compare p op c =>
      apply Runs.lift_bind (hparam p)
      rw [isParam_ofParam]
      by_cases hp : p = param
      · subst hp
        have hnext := @Bounded.next ls p sort i _ hl (compare_congr op c)
        rw [if_neg (by simp)]
        by_cases hskip : i % 2 = 0 ∧ 0 < sort
        · rw [if_pos hskip]
          exact Runs.pure hg ⟨_, _, Bounded.nothing _⟩
        rw [if_neg hskip]
        dsimp only
        by_cases hb : sort ≠ 0 ∧
            Methods.boundsFrom sort op (decide (i % 4 = 1 ∨ i % 4 = 2)) = true
        · have hafter := @bounds_after p sort op (i % 4) c hlt (by omega) hb.2
          have hscalar : c.IsScalar := hg.scalar _ (List.mem_of_getElem? hl)
          rw [if_pos hb]
          split_ifs with hpos
          · simp only [hpos, if_true] at hafter
            apply Runs.bind (getVar_spec hm hg (l := .compare p .gt c) hscalar)
            intro v ls₁ h₁ hg₁ hv
            have hnext₁ := hnext.grow h₁
            refine Runs.pure hg₁ ⟨_, _, hafter, ?_, hnext.next_subset, ?_, hnext₁.next_sat⟩
            · simpa using litOk_literal hv (by omega : 3 < 4) False.elim
            · intro row ν ha
              rw [cubeSat_cons, and_iff_left cubeSat_nil, holds_three ha hv, compare_true]
              cases row.value p with
              | none => simp [sortRank]
              | some x => simp [sortRank, CompareOp.Rel]
          · simp only [hpos, if_false] at hafter
            apply Runs.bind (getVar_spec hm hg (l := .compare p .lt c) hscalar)
            intro v ls₁ h₁ hg₁ hv
            have hnext₁ := hnext.grow h₁
            refine Runs.pure hg₁ ⟨_, _, hafter, ?_, hnext.next_subset, ?_, hnext₁.next_sat⟩
            · simpa using litOk_literal hv (by omega : 0 < 4) False.elim
            · intro row ν ha
              rw [cubeSat_cons, and_iff_left cubeSat_nil, holds_zero ha hv, ne_eq, compare_false]
              cases row.value p with
              | none => simp [sortRank]
              | some x => simp [sortRank, CompareOp.Rel]
        · rw [if_neg hb]
          exact Runs.pure hg ⟨_, _, hnext⟩
      · rw [if_pos (by simp [hp])]
        exact Runs.pure hg ⟨_, _, Bounded.nothing _⟩

theorem coverLiterals_spec (hm : LeafMethods self) (m : Minterm) :
    ∀ ls, Good ls → (∀ i ∈ m, LitOk ls i) →
      Runs (self.coverLiterals param sort m) ls fun r ls' =>
        ∃ Cov Next, Bounded ls' param sort m r.1 r.2 Cov Next := by
  induction m with
  | nil =>
      intro ls hg _
      exact Runs.pure hg ⟨_, _, Bounded.nothing _⟩
  | cons i m ih =>
      intro ls hg hok
      obtain ⟨hi, hm'⟩ := List.forall_mem_cons.mp hok
      unfold Methods.coverLiterals
      apply Runs.bind (coverLiteral_spec hm hg hi)
      rintro r ls₁ h₁ hg₁ ⟨Cov, Next, hr⟩
      apply Runs.bind (ih ls₁ hg₁ fun j hj => (hm' j hj).grow h₁)
      rintro r' ls₂ h₂ hg₂ ⟨Cov', Next', hr'⟩
      exact Runs.pure hg₂ ⟨_, _, (hr.grow h₂).append hr'⟩

/-! ## All sort keys -/

/-- The cover of a minterm: it contains the minterm, and what comes after. -/
def CoverOf (ls : List Leaf) (sort : SortKeys) (ms : Minterms) (cover : Minterms) : Prop :=
  ∃ U, Denotes ls cover U ∧ Final sort U
    ∧ ∀ row ν, Agrees row ν ls → Sat (Holds ν) ms → U row

theorem CoverOf.grow {sort : SortKeys} {ms cover : Minterms} (h : CoverOf ls sort ms cover)
    (hpre : ls <+: ls') : CoverOf ls' sort ms cover := by
  obtain ⟨U, hU, hfinal, hin⟩ := h
  exact ⟨U, hU.grow hpre, hfinal, fun row ν ha => hin row ν (ha.shrink hpre)⟩

theorem final_cons {allSort : SortKeys} {Cov Next U : Row → Prop}
    (hb : Bounds param sort Cov Next) (hU : Final allSort U) :
    Final ((param, sort) :: allSort) fun r => Cov r ∨ Next r ∧ U r := by
  rintro r s hr hns
  obtain ⟨hkey, hrest⟩ := not_or.mp hns
  rcases hr with hr | ⟨hnext, hr⟩
  · exact Or.inl (hb.final r s hr hkey)
  · rcases keyBefore_trichotomy param sort r s with h | h | h
    · exact Or.inl (hb.after r s hnext h)
    · refine Or.inr ⟨hb.same r s hnext h, hU r s hr fun hbefore => hrest ⟨h.symm, hbefore⟩⟩
    · exact absurd h hkey

theorem sat_map_append {ν : Nat → Bool} (m : Minterm) (ms : Minterms) :
    Sat (Holds ν) (ms.map (m ++ ·)) ↔ CubeSat (Holds ν) m ∧ Sat (Holds ν) ms := by
  simp only [Sat, List.mem_map, exists_exists_and_eq_and, cubeSat_append]
  constructor
  · rintro ⟨c, hc, hm, hs⟩
    exact ⟨hm, c, hc, hs⟩
  · rintro ⟨hm, c, hc, hs⟩
    exact ⟨c, hc, hm, hs⟩

theorem notNull_spec (hm : LeafMethods self) (hg : Good ls) :
    Runs (self.notNull param sort) ls fun notNull ls' =>
      ∃ Cov, Bounded ls' param sort [] notNull [] Cov fun _ => True := by
  unfold Methods.notNull
  split_ifs with hpos
  · apply Runs.bind (getVar_spec hm hg (l := .isNull param) trivial)
    intro v ls₁ h₁ hg₁ hv
    refine Runs.pure hg₁ ⟨fun row => row.value param ≠ none, ?_, ?_, by simp, ?_, by simp⟩
    · have hbot : ∀ row : Row, row.value param ≠ none ↔ ⊥ < sortRank (row.value param) := by
        intro row
        cases row.value param with
        | none => simp [sortRank]
        | some x => simp [sortRank]
      refine ⟨fun r s hr hns => ?_, fun _ _ _ _ => trivial, fun r s _ hrs => ?_⟩
      · unfold keyBefore at hns
        rw [if_pos hpos, not_lt] at hns
        exact (hbot s).mpr (((hbot r).mp hr).trans_le hns)
      · unfold keyBefore at hrs
        rw [if_pos hpos] at hrs
        exact (hbot s).mpr (bot_le.trans_lt hrs)
    · simpa using litOk_literal hv (by omega : 2 < 4) fun _ => le_rfl
    · intro row ν ha
      rw [cubeSat_cons, and_iff_left cubeSat_nil, holds_two ha hv]
      simp [Leaf.truth]
  · exact Runs.pure hg ⟨_, Bounded.nothing _⟩

theorem getCover_spec (hm : LeafMethods self) (m : Minterm) (sort : SortKeys) :
    ∀ ls, Good ls → (∀ i ∈ m, LitOk ls i) →
      Runs (self.getCover m sort) ls fun cover ls' => CoverOf ls' sort [m] cover := by
  induction sort with
  | nil =>
      intro ls hg _
      refine Runs.pure hg ⟨_, Denotes.everything, fun _ _ _ _ => trivial, fun _ _ _ _ => trivial⟩
  | cons key allSort ih =>
      obtain ⟨param, sort⟩ := key
      intro ls hg hok
      unfold Methods.getCover
      apply Runs.bind (notNull_spec hm hg)
      rintro notNull ls₁ h₁ hg₁ ⟨Cov, hCov⟩
      apply Runs.bind (coverLiterals_spec hm m ls₁ hg₁ fun i hi => (hok i hi).grow h₁)
      rintro r ls₂ h₂ hg₂ ⟨Cov', Next, hr⟩
      apply Runs.bind (ih ls₂ hg₂ fun i hi => (hok i hi).grow (h₁.trans h₂))
      rintro next ls₃ h₃ hg₃ ⟨U, hU, hfinal, hin⟩
      have hboth := ((hCov.grow h₂).append hr).grow h₃
      have hmlit : ∀ i ∈ m, LitOk ls₃ i := fun i hi => (hok i hi).grow (h₁.trans (h₂.trans h₃))
      refine Runs.pure hg₃ ⟨_, ⟨varsOk_iff.mpr ?_, fun row ν ha => ?_⟩,
        final_cons hboth.bounds hfinal, fun row ν ha hs => Or.inr ⟨?_, hin row ν ha hs⟩⟩
      · intro c hc i hi
        rcases List.mem_cons.mp hc with rfl | hc
        · exact hboth.cov_ok i hi
        · obtain ⟨c', hc', rfl⟩ := List.mem_map.mp hc
          rcases List.mem_append.mp hi with hi | hi
          · exact hmlit i (hr.next_subset hi)
          · exact varsOk_iff.mp hU.vars c' hc' i hi
      · rw [sat_cons, sat_map_append, hboth.cov_sat row ν ha, hU.sat row ν ha,
          (hr.grow h₃).next_sat row ν ha]
        simp
      · refine ⟨trivial, ((hr.grow h₃).next_sat row ν ha).mp fun i hi => ?_⟩
        rw [sat_cons, or_iff_left sat_nil] at hs
        exact hs i (hr.next_subset hi)

theorem covers_spec (hm : LeafMethods self) (sort : SortKeys) (gaps : Minterms) (hg : Good ls)
    (hgaps : VarsOk ls gaps) :
    Runs (gaps.mapM fun m => self.getCover m sort) ls fun covers ls' =>
      CoverOf ls' sort gaps covers.flatten := by
  have hall : Runs (gaps.mapM fun m => self.getCover m sort) ls fun covers ls' =>
      List.Forall₂ (fun m cover => CoverOf ls' sort [m] cover) gaps covers :=
    @Runs.mapM _ _ _ (fun m cover ls => CoverOf ls sort [m] cover)
      (fun _ _ _ _ h hpre => h.grow hpre) _ _ hg fun m hmem ls' hpre hg' =>
        getCover_spec hm m sort ls' hg' fun i hi => (varsOk_iff.mp hgaps m hmem i hi).grow hpre
  refine hall.mono fun covers ls' _ _ h => ?_
  clear hgaps hall
  induction h with
  | nil => exact ⟨_, Denotes.nothing, fun _ _ h _ => h, fun _ _ _ h => absurd h sat_nil⟩
  | cons hone _ ih =>
      obtain ⟨U, hU, hfinal, hin⟩ := hone
      obtain ⟨V, hV, hfinal', hin'⟩ := ih
      refine ⟨_, hU.append hV, fun r s hr hns => ?_, fun row ν ha hs => ?_⟩
      · exact hr.imp (fun h => hfinal r s h hns) fun h => hfinal' r s h hns
      · rcases sat_cons.mp hs with h | h
        · exact Or.inl (hin row ν ha (sat_cons.mpr (Or.inl h)))
        · exact Or.inr (hin' row ν ha h)

/-! ## The split -/

/-- A page `P` and the rest `Q` of the rows of `e2`, of which `e1` has the page. -/
structure Splits (E : Env) (c1 c2 : Clause) (sort : SortKeys) (P Q : Row → Prop) : Prop where
  both : ∀ row, P row ∨ Q row ↔ c2.On E row
  disjoint : ∀ row, ¬ (P row ∧ Q row)
  fetched : ∀ row, P row → c1.On E row
  ordered : ∀ r s, P r → Q s → rowBefore sort r s

variable {E : Env} {e1 e2 e1' e2' : Expr} {c1 c2 : Clause}

/-- Nothing of the page is there. -/
theorem Splits.none (sort : SortKeys) : Splits E c1 c2 sort (fun _ => False) (c2.On E) :=
  ⟨fun _ => or_iff_right id, fun _ h => h.1, fun _ h => h.elim, fun _ _ h => h.elim⟩

theorem Splits.cut {sort : SortKeys} {U : Row → Prop} (hfinal : Final sort U)
    (hgap : ∀ row, c2.On E row → ¬ c1.On E row → U row) :
    Splits E c1 c2 sort (fun row => ¬ U row ∧ c2.On E row) fun row => U row ∧ c2.On E row := by
  constructor
  · intro row
    tauto
  · rintro row ⟨h, h'⟩
    exact h.1 h'.1
  · rintro row ⟨hno, h2⟩
    by_contra h1
    exact hno (hgap row h2 h1)
  · rintro r s ⟨hno, _⟩ ⟨hs, _⟩
    by_contra hbefore
    exact hno (hfinal s r hs hbefore)

theorem selects_false {P : Row → Prop} (h : ∀ row, ¬ P row) :
    Selects E (Expr.ofBool false) P :=
  fun _ row => trueIff_false (h row)

theorem Prepared.paginate (hM : E.M.Exact) (h1 : Prepared E e1 e1' c1)
    (h2 : Prepared E e2 e2' c2) (sort : SortKeys) {n : Nat} (hn1 : sizeOf c1 + 6 ≤ n)
    (hn2 : sizeOf c2 + 6 ≤ n) :
    ∃ satisfied diff P Q, GenieAcs.paginate E n e1 e2 sort = .ok (satisfied, diff)
      ∧ Selects E satisfied P ∧ Selects E diff Q ∧ Splits E c1 c2 sort P Q := by
  obtain ⟨n, rfl⟩ : ∃ k, n = k + 6 := ⟨n - 6, by omega⟩
  rw [GenieAcs.paginate, h1.normalize]
  change ∃ satisfied diff P Q, (if (!e1'.truthy) = true then _ else _) = _ ∧ _
  by_cases hfalsy1 : e1'.truthy = false
  · rw [if_pos (by simp [hfalsy1])]
    exact ⟨_, e2, _, _, rfl, selects_false fun _ => id, h2.selects, Splits.none sort⟩
  rw [if_neg (by simpa using hfalsy1), h2.normalize]
  change ∃ satisfied diff P Q, (if (!e2'.truthy) = true then _ else _) = _ ∧ _
  by_cases hfalsy2 : e2'.truthy = false
  · rw [if_pos (by simp [hfalsy2])]
    have hliteral : e2' = Expr.ofBool false := by
      have harray : e2'.isArray = false := by
        cases e2' with
        | lit v => rfl
        | app op args => cases hfalsy2
      obtain ⟨b, rfl, _⟩ := h2.literal harray
      cases b with
      | true => cases hfalsy2
      | false => rfl
    refine ⟨_, e2', _, _, rfl, selects_false fun _ => id, ?_, Splits.none sort⟩
    rw [hliteral]
    exact selects_false (h2.never hfalsy2)
  rw [if_neg (by simpa using hfalsy2)]
  have hrun : Runs (do
      let expr1Minterms ← (methods E (n + 6)).true' c1
      let expr2 ← (methods E (n + 6)).true' c2
      let dc ← (methods E (n + 6)).getDcSet E (expr1Minterms ++ E.M.complement expr2)
      let gaps ← (methods E (n + 6)).sanitizeMinterms
        (E.M.complement (expr1Minterms ++ E.M.complement expr2 ++ dc))
      let covers ← gaps.mapM fun m => (methods E (n + 6)).getCover m sort
      let minterms1 ← (methods E (n + 6)).minimize E
        (E.M.complement (covers.flatten ++ E.M.complement expr2)) []
      let minterms2 ← (methods E (n + 6)).minimize E
        (E.M.complement (minterms1 ++ E.M.complement expr2)) []
      let satisfied ← (methods E (n + 6)).toExpression minterms1
      let diff ← (methods E (n + 6)).toExpression minterms2
      pure (satisfied, diff)) [] fun r _ =>
        ∃ P Q, Selects E r.1 P ∧ Selects E r.2 Q ∧ Splits E c1 c2 sort P Q := by
    have hm := leafMethods E (n + 3)
    have hrounds : 2 ≤ (methods E (n + 6)).rounds := by
      change 2 ≤ (methods E n).rounds + 1 + 1 + 1 + 1 + 1 + 1
      omega
    apply Runs.bind (h1.true' hM hn1 Good.nil)
    intro m1 ls₁ _ hg₁ hm1
    apply Runs.bind (h2.true' hM hn2 hg₁)
    intro m2 ls₂ h₂ hg₂ hm2
    have hnot2 := hm2.complement hM
    have hm1₂ := hm1.grow h₂
    apply Runs.bind (getDcSet_spec E hm hrounds hg₂ (hm1₂.append hnot2).vars)
    intro dc ls₃ h₃ hg₃ hdc
    have hregion := (((hm1₂.append hnot2).grow h₃).append hdc).complement hM
    apply Runs.bind (sanitizeMinterms_spec hm hg₃ hregion.vars)
    intro gaps ls₄ h₄ hg₄ hs
    have hgaps := hs.denotes (hregion.grow h₄)
    apply Runs.bind (covers_spec hm sort gaps hg₄ hgaps.vars)
    rintro covers ls₅ h₅ hg₅ ⟨U, hU, hfinal, hin⟩
    have hnot2₅ := hnot2.grow (h₃.trans (h₄.trans h₅))
    have hfirst := ((hU.append hnot2₅).complement hM).congr (Q := fun row =>
      ¬ U row ∧ c2.On E row) fun row => by tauto
    apply Runs.bind (minimize_spec hM hm hrounds hg₅ hfirst)
    intro minterms1 ls₆ h₆ hg₆ hminterms1
    have hrest := ((hminterms1.append (hnot2₅.grow h₆)).complement hM).congr (Q := fun row =>
      U row ∧ c2.On E row) fun row => by tauto
    apply Runs.bind (minimize_spec hM hm hrounds hg₆ hrest)
    intro minterms2 ls₇ h₇ hg₇ hminterms2
    apply Runs.bind (toExpression_spec E (n + 1) hg₇ (hminterms1.grow h₇))
    intro satisfied ls₈ h₈ hg₈ hsatisfied
    apply Runs.bind (toExpression_spec E (n + 1) hg₈ (hminterms2.grow h₈))
    intro diff ls₉ _ hg₉ hdiff
    refine Runs.pure hg₉ ⟨_, _, hsatisfied, hdiff, Splits.cut hfinal fun row h2 h1 => ?_⟩
    -- a row of the query that is not fetched is in a gap
    obtain ⟨ν, ha⟩ := exists_agrees row ls₅
    refine hin row ν ha (((hgaps.grow h₅).sat row ν ha).mpr ?_)
    tauto
  obtain ⟨⟨satisfied, diff⟩, Γ, _, hrun, _, P, Q, hP, hQ, hsplit⟩ := hrun.run
  refine ⟨satisfied, diff, P, Q, ?_, hP, hQ, hsplit⟩
  rw [h1.clause (n + 5), h2.clause (n + 5)]
  exact congrArg (fun x : Except JsError ((Expr × Expr) × SynthContext) => x.map Prod.fst) hrun

/-- The page is what comes first of the query, and it is there already. -/
theorem paginate_splits (hM : E.M.Exact) (h1 : Filter e1) (h2 : Filter e2) (sort : SortKeys) :
    ∃ depth, ∀ n ≥ depth, ∃ satisfied diff,
      GenieAcs.paginate E n e1 e2 sort = .ok (satisfied, diff)
      ∧ (∀ (row : Row) now, ∃ b1 b2 bs bd, truthyOn E.J row.value now e1 = .ok b1
        ∧ truthyOn E.J row.value now e2 = .ok b2
        ∧ truthyOn E.J row.value now satisfied = .ok bs
        ∧ truthyOn E.J row.value now diff = .ok bd
        ∧ (bs || bd) = b2 ∧ (bs && bd) = false ∧ (bs = true → b1 = true))
      ∧ ∀ (r s : Row) now, truthyOn E.J r.value now satisfied = .ok true →
        truthyOn E.J s.value now diff = .ok true → rowBefore sort r s := by
  obtain ⟨e1', c1, hp1⟩ := @Filter.prepared E e1 h1
  obtain ⟨e2', c2, hp2⟩ := @Filter.prepared E e2 h2
  refine ⟨sizeOf c1 + sizeOf c2 + 6, fun n hn => ?_⟩
  obtain ⟨satisfied, diff, P, Q, hrun, hP, hQ, hsplit⟩ :=
    hp1.paginate hM hp2 sort (n := n) (by omega) (by omega)
  have htruthy : ∀ {e R} (_ : Selects E e R) (row : Row) now,
      ∃ b, truthyOn E.J row.value now e = .ok b ∧ (b = true ↔ R row) := by
    intro e R hsel row now
    obtain ⟨t, ht, hiff⟩ := hsel now row
    exact ⟨_, ht.truthyOn_eq, decide_eq_true_iff.trans hiff⟩
  refine ⟨satisfied, diff, hrun, fun row now => ?_, fun r s now hr hs => ?_⟩
  · obtain ⟨b1, ht1, hb1⟩ := hp1.truthyOn row now
    obtain ⟨b2, ht2, hb2⟩ := hp2.truthyOn row now
    obtain ⟨bs, hts, hbs⟩ := htruthy hP row now
    obtain ⟨bd, htd, hbd⟩ := htruthy hQ row now
    refine ⟨b1, b2, bs, bd, ht1, ht2, hts, htd, ?_, ?_, fun h => ?_⟩
    · rw [Bool.eq_iff_iff, Bool.or_eq_true, hbs, hbd, hb2, hsplit.both row]
    · rw [← Bool.not_eq_true, Bool.and_eq_true, hbs, hbd]
      exact hsplit.disjoint row
    · exact hb1.mpr (hsplit.fetched row (hbs.mp h))
  · obtain ⟨bs, hts, hbs⟩ := htruthy hP r now
    obtain ⟨bd, htd, hbd⟩ := htruthy hQ s now
    rw [hts] at hr
    rw [htd] at hs
    exact hsplit.ordered r s (hbs.mp (Except.ok.inj hr)) (hbd.mp (Except.ok.inj hs))

end

/-- `paginate_splits` on two filters, sorted by two keys. -/
theorem paginate_splits_busy :
    ∃ depth, ∀ n ≥ depth, ∃ satisfied diff,
      paginate plainEnv n busyOrUnknown busy [(js "uptime", -1), (js "_id", 1)]
        = .ok (satisfied, diff)
      ∧ (∀ (row : Row) now, ∃ b1 b2 bs bd,
        truthyOn idleJs row.value now busyOrUnknown = .ok b1
        ∧ truthyOn idleJs row.value now busy = .ok b2
        ∧ truthyOn idleJs row.value now satisfied = .ok bs
        ∧ truthyOn idleJs row.value now diff = .ok bd
        ∧ (bs || bd) = b2 ∧ (bs && bd) = false ∧ (bs = true → b1 = true))
      ∧ ∀ (r s : Row) now, truthyOn idleJs r.value now satisfied = .ok true →
        truthyOn idleJs s.value now diff = .ok true →
        rowBefore [(js "uptime", -1), (js "_id", 1)] r s :=
  @paginate_splits plainEnv _ _ (naive_exact Hints) busyOrUnknown_filter busy_filter _

/-! ## Rows without an id -/

/-- `["IS NULL", ["PARAM", "DeviceID.ID"]]`. -/
def noId : Expr := .app .isNull [.ofParam (js "DeviceID.ID")]

theorem paginate_noId (n : Nat) :
    paginate ⟨idleJs, pruning Hints⟩ (n + 16) (.ofParam (js "tag")) noId []
      = .ok (Expr.ofBool false, Expr.ofBool false) := by
  set_option maxRecDepth 100000 in rfl

/-- A row without a device id satisfies the query, and neither part of it. -/
theorem paginate_loses_rows : ¬ ∀ (E : Env) (e1 e2 : Expr) (sort : SortKeys),
    E.M.Exact → Filter e1 → Filter e2 → ∃ depth, ∀ n ≥ depth, ∃ satisfied diff,
      paginate E n e1 e2 sort = .ok (satisfied, diff)
      ∧ ∀ (obj : Lookup) now, ∃ b2 bs bd, truthyOn E.J obj now e2 = .ok b2
        ∧ truthyOn E.J obj now satisfied = .ok bs ∧ truthyOn E.J obj now diff = .ok bd
        ∧ (bs || bd) = b2 := by
  intro h
  obtain ⟨depth, hall⟩ := h ⟨idleJs, pruning Hints⟩ (.ofParam (js "tag")) noId []
    (pruning_exact Hints) (Filter.param _) (Filter.isNull _)
  obtain ⟨satisfied, diff, hrun, hrows⟩ := hall (depth + 16) (by omega)
  rw [paginate_noId depth] at hrun
  cases hrun
  obtain ⟨b2, bs, bd, h2, hs, hd, hor⟩ := hrows (fun _ => none) none
  have hnull := @Means.isNull idleJs (fun _ => none) none _ _
    (Means.evaluate_param (js "DeviceID.ID"))
  have htrue : truthyOn idleJs (fun _ => none) none noId = .ok true := hnull.truthyOn_eq
  have hfalse : truthyOn idleJs (fun _ => none) none (Expr.ofBool false) = .ok false :=
    (Means.bool false).truthyOn_eq
  rw [htrue] at h2
  rw [hfalse] at hs hd
  cases h2
  cases hs
  cases hd
  cases hor

end GenieAcs
