import GenieAcs.DeviceAscent
import GenieAcs.Lib.Transition

/-!
# The device tree stays closed

The clears of a batch drop a path together with all there is below it, so that
the tree is closed again once they are done. `clear` looks for at most 99
fragments, and a timestamp of 0 counts as none; neither can be left out.
-/

namespace GenieAcs

namespace DeviceData

/-! ## The clears -/

section Clears

variable {b : Batch} {L : Nat} {d : DeviceData}

/-- One of the clears that a batch returned. -/
theorem clear_mid {c : Clear} {cs : List Clear} (hL : L ≤ 99) (hpos : 0 < b.timestamp)
    (hmid : Mid b L (fun _ => False) (fun e => e ∈ c :: cs) d) :
    Mid b L (fun _ => False) (fun e => e ∈ cs) (d.clear c) := by
  have hc : Shaped b.timestamp c := hmid.shaped c (List.mem_cons_self ..)
  have hpaths := (clear_spec d c).1
  have hsurvivor : ∀ p current', (d.clear c).attributes.get? p = some current' → _ :=
    fun p current' h => clear_survivor (hmid.stored p) h
  have hsome : ∀ p, ((d.clear c).attributes.get? p).isSome = true →
      (d.attributes.get? p).isSome = true := by
    intro p hp
    obtain ⟨current', hcur'⟩ := Option.isSome_iff_exists.mp hp
    obtain ⟨current, s, hcur, -⟩ := hsurvivor p current' hcur'
    rw [hcur]
    rfl
  have hnow : ∀ p, d.Spared c p b.timestamp := by
    intro p _ hr
    exact lt_irrefl _ (hc.removes_lt hpos hpos hr)
  constructor
  case plain =>
    intro p hp
    rw [hpaths]
    exact hmid.plain p (hsome p hp)
  case times => exact fun p t ht => hmid.times p t (clear_timestamp ht).1
  case stamped =>
    intro p current' hcur'
    obtain ⟨current, s, hcur, ht, ht', -, hsub⟩ := hsurvivor p current' hcur'
    obtain ⟨s', hs', hstamps⟩ := hmid.stamped p current hcur
    obtain rfl := Option.some.inj (ht.symm.trans hs')
    exact ⟨s, ht', fun x n hx => hstamps x n (hsub x n hx)⟩
  case touched =>
    exact fun p hp ht => hmid.touched p (hsome p hp) (clear_timestamp ht).1
  case present =>
    intro p hp ht
    obtain ⟨ht', -⟩ := clear_timestamp ht
    obtain ⟨current, hcur⟩ := Option.isSome_iff_exists.mp (hmid.present p hp ht')
    obtain ⟨-, current', hcur', -⟩ := clear_spares ht' hcur (hnow p)
    rw [hcur']
    rfl
  case opened =>
    intro q current' v hq hcur' hv
    obtain ⟨current, s, hcur, -, -, -, hsub⟩ := hsurvivor q current' hcur'
    exact hmid.opened q current v hq hcur (hsub _ _ hv)
  case fresh =>
    intro p hX hp ht q hq
    obtain ⟨cur, hcur, htq, hobj⟩ :=
      hmid.fresh p hX (hsome p hp) (clear_timestamp ht).1 q hq
    obtain ⟨htq', cur', hcur', hcases⟩ := clear_spares htq hcur (hnow q)
    refine ⟨cur', hcur', htq', ?_⟩
    rcases hcases with rfl | ⟨-, rfl⟩
    · exact hobj
    · exact kept_now hpos hc hobj
  case old =>
    intro p t hp ht hlt q hq
    obtain ⟨ht', hspared⟩ := clear_timestamp ht
    have hp' := hsome p hp
    obtain ⟨hplain, hin, hlen⟩ := hmid.plain p hp'
    -- The path would have been dropped with what is above it.
    have hnot : c.path ≠ q := by
      rintro rfl
      exact hspared (found_under hpos hc hq.2.1 hin (hlen.trans hL))
        (hc.removes_below hpos hq.length_lt hlt)
    rcases hmid.old p t hp' ht' hlt q hq with ⟨cur, time, stamp, hcur, htq, hle, hobj⟩ | hclear
    · have hsparedq : d.Spared c q time := fun hfound hr =>
        hspared (found_below hpos hc hfound hq.2.1 hin (hlen.trans hL)) (removes_mono hr hq.2.1 hle)
      obtain ⟨htq', cur', hcur', hcases⟩ := clear_spares htq hcur hsparedq
      refine Or.inl ⟨cur', time, stamp, hcur', htq', hle, ?_⟩
      rcases hcases with rfl | ⟨hfound, rfl⟩
      · exact hobj
      · have hplainq : star ∉ q := fun hstar => hplain (hq.2.1.subset hstar)
        rw [kept_elsewhere hc hfound hplainq (Ne.symm hnot)]
        exact hobj
    · obtain ⟨e, he, hpath⟩ := hclear
      rcases List.mem_cons.mp he with rfl | he
      · exact absurd hpath hnot
      · exact Or.inr ⟨e, he, hpath⟩
  case shaped => exact fun e he => hmid.shaped e (List.mem_cons_of_mem _ he)

theorem clears_mid {cs : List Clear} (hL : L ≤ 99) (hpos : 0 < b.timestamp)
    (hmid : Mid b L (fun _ => False) (fun e => e ∈ cs) d) :
    Mid b L (fun _ => False) (fun _ => False) (cs.foldl clear d) := by
  induction cs generalizing d with
  | nil => exact hmid.mono (fun c hc => absurd hc List.not_mem_nil) fun c hc => hc.elim
  | cons c cs ih => exact ih (clear_mid hL hpos hmid)

end Clears

/-! ## Runs -/

/-- What holds between batches. -/
structure Tree (L : Nat) (d : DeviceData) : Prop where
  plain : ∀ p, (d.attributes.get? p).isSome = true → star ∉ p ∧ p ∈ d.paths ∧ p.length ≤ L
  positive : ∀ p t, d.timestamps.get? p = some t → 0 < t
  stamped : ∀ p current, d.attributes.get? p = some current →
    ∃ t, d.timestamps.get? p = some t ∧ ∀ x n, current x = some n → n.1 ≤ t
  closed : d.Closed

theorem tree_init (L : Nat) : initDeviceData.Tree L where
  plain _ h := absurd h Bool.false_ne_true
  positive _ _ h := nomatch h
  stamped _ _ h := nomatch h
  closed _ h := absurd h Bool.false_ne_true

theorem Tree.start {L : Nat} {d : DeviceData} {b : Batch} (h : d.Tree L) (hb : b.Valid d) :
    Mid b L (fun _ => False) (fun c => c ∈ ([] : List Clear)) d where
  plain := h.plain
  times p t ht := ⟨h.positive p t ht, (hb.newer p t ht).le⟩
  stamped := h.stamped
  touched p _ ht := absurd (hb.newer p _ ht) (lt_irrefl _)
  present p _ ht := absurd (hb.newer p _ ht) (lt_irrefl _)
  opened q current v _ hcur hv := by
    obtain ⟨t, ht, hstamps⟩ := h.stamped q current hcur
    exact absurd (hb.newer q t ht) (not_lt.mpr (hstamps _ _ hv))
  fresh p _ _ ht := absurd (hb.newer p _ ht) (lt_irrefl _)
  old p t hp ht _ q hq := by
    obtain ⟨t', ht', hall⟩ := h.closed p hp
    obtain rfl := Option.some.inj (ht.symm.trans ht')
    exact Or.inl (hall q hq)
  shaped c hc := absurd hc List.not_mem_nil

theorem Mid.finish {L : Nat} {d : DeviceData} {b : Batch}
    (h : Mid b L (fun _ => False) (fun _ => False) d) : d.Tree L where
  plain := h.plain
  positive p t ht := (h.times p t ht).1
  stamped := h.stamped
  closed p hp := by
    obtain ⟨t, ht⟩ := h.stored p hp
    refine ⟨t, ht, fun q hq => ?_⟩
    rcases lt_or_eq_of_le (h.times p t ht).2 with hlt | rfl
    · rcases h.old p t hp ht hlt q hq with hholds | ⟨c, hc, -⟩
      · exact hholds
      · exact hc.elim
    · obtain ⟨cur, hcur, htq, hobj⟩ := h.fresh p id hp ht q hq
      exact ⟨cur, _, _, hcur, htq, le_rfl, hobj⟩

theorem run_mid {L : Nat} {d : DeviceData} {b : Batch} (h : d.Tree L) (hb : b.Valid d)
    (hL : b.Within L) : Mid b L (fun _ => False) (fun c => c ∈ (b.setAll d).2) (b.setAll d).1 :=
  sets_mid hb hL b.sets (fun _ hs => hs) (d, []) (fun _ hc => absurd hc List.not_mem_nil)
    (h.start hb)

theorem run_tree {d : DeviceData} {b : Batch} (h : d.Tree 99) (hb : b.Valid d)
    (hL : b.Within 99) : (b.run d).Tree 99 :=
  (clears_mid le_rfl hL.positive (run_mid h hb hL)).finish

/-- After any batches with positive timestamps on paths of at most 99 fragments
the tree is closed. -/
theorem tree_closed {d : DeviceData}
    (h : Reachable (· = initDeviceData)
      (fun d d' => ∃ b : Batch, b.Valid d ∧ b.Within 99 ∧ d' = b.run d) d) : d.Closed := by
  have htree : d.Tree 99 := by
    refine h.invariant ?_ ?_
    · rintro d rfl
      exact tree_init 99
    · rintro d d' hd ⟨b, hb, hL, rfl⟩
      exact run_tree hd hb hL
  exact htree.closed

/-! ## What the closure needs -/

theorem Batch.valid_single {d : DeviceData} {t : Timestamp} {path : Path} {x : Option Attributes}
    (hnewer : ∀ p s, d.timestamps.get? p = some s → s < t)
    (hx : ∀ a, x = some a → ∀ y n, a y = some n → n.1 = t) : (Batch.mk t [(path, x)]).Valid d where
  newer := hnewer
  stamped p a _ hmem := by
    obtain ⟨-, rfl⟩ := Prod.mk.inj (List.mem_singleton.mp hmem)
    exact hx a rfl
  nested q y _ hmem _ p hp := by
    obtain ⟨rfl, -⟩ := Prod.mk.inj (List.mem_singleton.mp hmem)
    obtain ⟨-, a, ha⟩ := hp
    obtain ⟨rfl, -⟩ := Prod.mk.inj (List.mem_singleton.mp ha)
    exact fun h => h.2 rfl
  once p hp hmem := by
    obtain ⟨-, rfl⟩ := Prod.mk.inj (List.mem_singleton.mp hmem)
    obtain ⟨-, a, ha⟩ := hp
    cases (Prod.mk.inj (List.mem_singleton.mp ha)).2

/-- Some value of time `t`. -/
def someValue (t : Timestamp) : Attributes :=
  Function.update (fun _ => none) .value (some (t, .array []))

theorem someValue_stamps {t : Timestamp} (y : AttrName) (n : Timestamp × AttrValue)
    (h : someValue t y = some n) : n.1 = t := by
  cases y <;> simp [someValue] at h
  exact h ▸ rfl

/-- A parameter below an object that was not there. -/
theorem tree_closed_nested :
    ((Batch.mk 1 [([js "a", js "b"], some (someValue 1))]).run initDeviceData).Closed := by
  refine tree_closed (.step (.init rfl) ⟨⟨1, [([js "a", js "b"], some (someValue 1))]⟩,
    Batch.valid_single (fun p s h => by cases h) ?_, ⟨by norm_num, ?_⟩, rfl⟩)
  · rintro a h y n hy
    obtain rfl := Option.some.inj h
    exact someValue_stamps y n hy
  · rintro p ⟨-, a, ha⟩
    obtain ⟨rfl, -⟩ := Prod.mk.inj (List.mem_singleton.mp ha)
    decide

/-- No clear reaches a path of more than 99 fragments. -/
theorem clear_deep {d : DeviceData} {t : Timestamp} {c : Clear} {p : Path} (hpos : 0 < t)
    (hc : Shaped t c) (hp : 99 < p.length) :
    (d.clear c).attributes.get? p = d.attributes.get? p := by
  rw [(clear_spec d c).2.2.2, if_neg]
  intro hfound
  obtain ⟨-, -, hle, -⟩ := PathSet.mem_find.mp hfound
  rw [clearDepth, hc.descendants hpos, if_pos hpos.ne'] at hle
  omega

theorem clears_deep {t : Timestamp} {cs : List Clear} {p : Path} (hpos : 0 < t)
    (hp : 99 < p.length) (d : DeviceData) (hcs : ∀ c ∈ cs, Shaped t c) :
    (cs.foldl clear d).attributes.get? p = d.attributes.get? p := by
  induction cs generalizing d with
  | nil => rfl
  | cons c cs ih =>
      rw [List.foldl_cons, ih _ fun e he => hcs e (List.mem_cons_of_mem _ he),
        clear_deep hpos (hcs c (List.mem_cons_self ..)) hp]

theorem clears_none {cs : List Clear} {p : Path} (d : DeviceData)
    (h : d.attributes.get? p = none) : (cs.foldl clear d).attributes.get? p = none := by
  induction cs generalizing d with
  | nil => exact h
  | cons c cs ih => exact ih _ (clear_none h)

/-- Clears leave no attributes without a timestamp, and write no timestamp. -/
theorem clears_sound {cs : List Clear} {p : Path} (d : DeviceData)
    (hstored : (d.attributes.get? p).isSome = true → ∃ s, d.timestamps.get? p = some s) :
    (((cs.foldl clear d).attributes.get? p).isSome = true →
      ∃ s, (cs.foldl clear d).timestamps.get? p = some s)
    ∧ ∀ s, (cs.foldl clear d).timestamps.get? p = some s → d.timestamps.get? p = some s := by
  induction cs generalizing d with
  | nil => exact ⟨hstored, fun _ h => h⟩
  | cons c cs ih =>
      have hnext : ((d.clear c).attributes.get? p).isSome = true →
          ∃ s, (d.clear c).timestamps.get? p = some s := by
        intro h
        obtain ⟨current', hcur'⟩ := Option.isSome_iff_exists.mp h
        obtain ⟨-, s, -, -, ht, -⟩ := clear_survivor hstored hcur'
        exact ⟨s, ht⟩
      obtain ⟨h1, h2⟩ := ih (d.clear c) hnext
      exact ⟨h1, fun s hs => (clear_timestamp (h2 s hs)).1⟩

def deepBatch : Batch := ⟨1, [(deepPath, some (someValue 1))]⟩

def cutBatch : Batch := ⟨2, [([js "a"], none)]⟩

theorem deepBatch_valid : deepBatch.Valid initDeviceData := by
  refine Batch.valid_single (fun p s h => by cases h) ?_
  rintro a h y n hy
  obtain rfl := Option.some.inj h
  exact someValue_stamps y n hy

theorem deepBatch_within : deepBatch.Within 100 where
  positive := one_pos
  short := by
    rintro p ⟨-, a, ha⟩
    obtain ⟨rfl, -⟩ := Prod.mk.inj (List.mem_singleton.mp ha)
    exact (List.length_replicate).le

/-- After the first batch the deep path is there. -/
theorem deepBatch_run : ((deepBatch.run initDeviceData).attributes.get? deepPath).isSome = true
    ∧ ∀ p, (((deepBatch.run initDeviceData).attributes.get? p).isSome = true →
        ∃ s, (deepBatch.run initDeviceData).timestamps.get? p = some s)
      ∧ ∀ s, (deepBatch.run initDeviceData).timestamps.get? p = some s → 0 < s ∧ s ≤ 1 := by
  have hmid := run_mid (tree_init 100) deepBatch_valid deepBatch_within
  have hsets : deepBatch.Sets deepPath :=
    ⟨by decide, _, List.mem_singleton_self _⟩
  have hup : Ascended deepBatch 100 (fun _ => False) (fun c => c ∈ ([] : List Clear)) deepPath
      (someValue 1) [] (initDeviceData.set deepPath 1 (some (someValue 1)) []) :=
    set_ascends ((tree_init 100).start deepBatch_valid) one_pos hsets.1
      (deepBatch_within.short _ hsets) (Or.inl hsets) (fun _ _ h => h) someValue_stamps (by
        rintro ⟨p, ⟨-, a, ha⟩, hup⟩
        obtain ⟨rfl, -⟩ := Prod.mk.inj (List.mem_singleton.mp ha)
        exact absurd rfl hup.2.2)
  have hdeep : 99 < deepPath.length := by
    rw [deepPath, List.length_replicate]
    omega
  refine ⟨?_, fun p => ?_⟩
  · rw [Batch.run, clears_deep one_pos hdeep _ hmid.shaped]
    exact hup.stored
  · obtain ⟨hstored, htimes⟩ :=
      @clears_sound (deepBatch.setAll initDeviceData).2 p _ (hmid.stored p)
    exact ⟨hstored, fun s hs => hmid.times p s (htimes s hs)⟩

theorem cutBatch_setAll (d : DeviceData) :
    cutBatch.setAll d = d.set [js "a"] 2 none [] := rfl

theorem deepPath_length : deepPath.length = 100 := List.length_replicate

/-- Deleting the top of a path of a hundred fragments leaves the path. -/
theorem cutBatch_run : ¬ (cutBatch.run (deepBatch.run initDeviceData)).Closed := by
  obtain ⟨hdeep, hsound⟩ := deepBatch_run
  generalize deepBatch.run initDeviceData = d at *
  obtain ⟨hstored, htimes⟩ := hsound [js "a"]
  have htop : Above [js "a"] deepPath := by
    refine ⟨List.cons_ne_nil _ _, ⟨List.replicate 99 (js "a"), rfl⟩, fun h => ?_⟩
    have hlen := congrArg List.length h
    rw [deepPath_length] at hlen
    exact absurd hlen (by decide)
  have hnot : ¬ deepPath <+: [js "a"] := by
    intro h
    have hle := h.length_le
    rw [deepPath_length] at hle
    exact absurd hle (by decide)
  have hsets := cutBatch_setAll d
  have hplain : star ∉ [js "a"] := by decide
  have hgone := set_null_gone hplain
    (fun s hs => ⟨(htimes s hs).1, (htimes s hs).2.trans one_le_two⟩) hstored
    (fun h => absurd (htimes 2 h).2 (by norm_num))
  rw [← hsets] at hgone
  have hkept : (cutBatch.setAll d).1.attributes.get? deepPath = d.attributes.get? deepPath := by
    rw [hsets]
    exact (set_frame d [js "a"] 2 none [] hnot).2
  intro hclosed
  obtain ⟨t, -, hall⟩ := hclosed deepPath (by
    rw [Batch.run, clears_deep two_pos (by rw [deepPath_length]; decide) _ hgone.2, hkept]
    exact hdeep)
  obtain ⟨cur, -, -, hcur, -⟩ := hall [js "a"] htop
  rw [Batch.run, clears_none _ hgone.1] at hcur
  cases hcur

/-- A parameter, then its parent again, at time 0. -/
def zeroBatch : Batch :=
  ⟨0, [([js "a", js "b"], some (someValue 0)),
    ([js "a"], some (Function.update (fun _ => none) .writable (some (0, .num 1))))]⟩

theorem zeroBatch_valid : zeroBatch.Valid initDeviceData where
  newer p s h := by cases h
  stamped p a _ hmem x n hx := by
    rcases List.mem_cons.mp hmem with heq | hmem
    · obtain ⟨-, ha⟩ := Prod.mk.inj heq
      obtain rfl := Option.some.inj ha
      exact someValue_stamps x n hx
    · obtain ⟨-, ha⟩ := Prod.mk.inj (List.mem_singleton.mp hmem)
      obtain rfl := Option.some.inj ha
      cases x <;> simp at hx
      exact hx ▸ rfl
  nested q y _ hmem hshuts p hp hup := by
    obtain ⟨-, a, ha⟩ := hp
    rcases List.mem_cons.mp hmem with heq | hmem
    · obtain ⟨rfl, -⟩ := Prod.mk.inj heq
      have hlen : p.length ≤ 2 := by
        rcases List.mem_cons.mp ha with heq | ha
        · rw [(Prod.mk.inj heq).1]
          exact le_rfl
        · rw [(Prod.mk.inj (List.mem_singleton.mp ha)).1]
          exact one_le_two
      exact hup.2 (hup.1.eq_of_length (le_antisymm hup.1.length_le hlen))
    · obtain ⟨-, rfl⟩ := Prod.mk.inj (List.mem_singleton.mp hmem)
      rcases hshuts _ rfl with ⟨n, hn, -⟩ | ⟨n, hn, -⟩
      · cases hn
      · cases hn
  once p _ hmem := by
    rcases List.mem_cons.mp hmem with heq | hmem
    · cases (Prod.mk.inj heq).2
    · cases (Prod.mk.inj (List.mem_singleton.mp hmem)).2

theorem zeroBatch_run : ¬ (zeroBatch.run initDeviceData).Closed := by
  intro hclosed
  obtain ⟨t, -, hall⟩ := hclosed [js "a", js "b"] (by decide +kernel)
  obtain ⟨cur, -, stamp, hcur, -, -, hobj⟩ :=
    hall [js "a"] ⟨List.cons_ne_nil _ _, ⟨[js "b"], rfl⟩, by decide⟩
  have hnone : ((zeroBatch.run initDeviceData).attributes.get? [js "a"]).bind (· .object) = none := by
    decide +kernel
  rw [hcur, Option.bind_some, hobj] at hnone
  cases hnone

/-- With longer paths, or with the timestamp 0, a tree need not stay closed. -/
theorem tree_not_closed :
    (∃ d, Reachable (· = initDeviceData) (fun d d' => ∃ b : Batch, b.Valid d ∧ 0 < b.timestamp
      ∧ d' = b.run d) d ∧ ¬ d.Closed)
    ∧ ∃ d, Reachable (· = initDeviceData) (fun d d' => ∃ b : Batch, b.Valid d
      ∧ (∀ p, b.Sets p → p.length ≤ 99) ∧ d' = b.run d) d ∧ ¬ d.Closed := by
  constructor
  · refine ⟨_, .step (.step (.init rfl) ⟨deepBatch, deepBatch_valid, one_pos, rfl⟩)
      ⟨cutBatch, ?_, two_pos, rfl⟩, cutBatch_run⟩
    exact Batch.valid_single (fun p s hs => lt_of_le_of_lt ((deepBatch_run.2 p).2 s hs).2
      one_lt_two) (fun a h => by cases h)
  · refine ⟨_, .step (.init rfl) ⟨zeroBatch, zeroBatch_valid, ?_, rfl⟩, zeroBatch_run⟩
    rintro p ⟨-, a, ha⟩
    rcases List.mem_cons.mp ha with heq | ha
    · rw [(Prod.mk.inj heq).1]
      decide
    · rw [(Prod.mk.inj (List.mem_singleton.mp ha)).1]
      decide

end DeviceData

end GenieAcs
