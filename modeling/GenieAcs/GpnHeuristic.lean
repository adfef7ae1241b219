import Mathlib.Algebra.BigOperators.Ring.Finset
import Mathlib.Algebra.Order.BigOperators.Group.Finset
import Mathlib.Data.Finset.Card
import GenieAcs.Lib.Groups
import GenieAcs.PathSet

/-!
# How many requests a discovery takes

`estimateGpnCount` says how many `GetParameterNames` requests of one level it
takes to discover what some patterns ask for. A pattern is a path with flags:
a set bit says that what is below that prefix of the path has not been read.

Without wildcards the estimate is the number of different prefixes that have not
been read; with wildcards it is at least that of the patterns without.
-/

namespace GenieAcs

/-! ## The estimate -/

/-- `[path, flags]`. -/
abbrev GpnPattern := Path × Mask

def WILDCARD_MULTIPLIER : ℤ := 2

def UNDISCOVERED_DEPTH : ℕ := 7

namespace GpnPattern

/-- `flags & 1` once the flags are shifted by `depth`. -/
def refreshes (depth : ℕ) (p : GpnPattern) : Bool := Mask.test p.2 depth

/-- `path.segments[depth]`, where there is one that is not empty. -/
def segment (depth : ℕ) (p : GpnPattern) : Option JsString := p.1[depth]?.filter (· ≠ [])

/-- The loop does not go on to the children. -/
def stops (depth : ℕ) (p : GpnPattern) : Bool := p.refreshes depth ∧ UNDISCOVERED_DEPTH < depth

end GpnPattern

/-- The variables of the loop over the patterns. -/
structure GpnScan where
  children : InsMap JsString (List GpnPattern) := .empty
  wildcardChildren : List GpnPattern := []
  wildcardDiscovered : Bool := false
  gpnCount : ℤ := 0

namespace GpnScan

def scan (depth : ℕ) (s : GpnScan) (pattern : GpnPattern) : GpnScan :=
  let refreshes := pattern.refreshes depth
  match pattern.segment depth with
  | none => if refreshes then { s with gpnCount := 1 } else s
  | some k =>
      let s :=
        if refreshes then { s with gpnCount := 1 }
        else if k = star then { s with wildcardDiscovered := true }
        else s
      if pattern.stops depth then s
      else if k = star then { s with wildcardChildren := s.wildcardChildren ++ [pattern] }
      else { s with children := s.children.push k pattern }

def scanAll (depth : ℕ) (patterns : List GpnPattern) : GpnScan := patterns.foldl (scan depth) {}

end GpnScan

/-- The recursion ends below the longest path. -/
def estimateFrom : ℕ → List GpnPattern → ℕ → ℤ
  | 0, _, _ => 0
  | fuel + 1, gpnPatterns, depth =>
      let s := GpnScan.scanAll depth gpnPatterns
      let wildcardGpnCount :=
        if ¬ s.wildcardDiscovered ∧ s.wildcardChildren ≠ [] then
          estimateFrom fuel s.wildcardChildren (depth + 1) * WILDCARD_MULTIPLIER
        else 0
      let counts := s.children.entries.map fun (_, child) =>
        estimateFrom fuel (child ++ s.wildcardChildren) (depth + 1)
      s.gpnCount + counts.sum + max 0 (wildcardGpnCount - counts.sum)

def longest (patterns : List GpnPattern) : ℕ := (patterns.map fun p => p.1.length).foldr max 0

def estimateGpnCount (gpnPatterns : List GpnPattern) : ℤ :=
  estimateFrom (longest gpnPatterns + 1) gpnPatterns 0

/-! ## What the loop comes to -/

namespace GpnPattern

/-- The fragment that the pattern is a child of. -/
def childKey (depth : ℕ) (p : GpnPattern) : Option JsString :=
  if p.stops depth then none else (p.segment depth).filter (· ≠ star)

/-- The pattern goes on with a wildcard. -/
def underStar (depth : ℕ) (p : GpnPattern) : Bool :=
  p.segment depth = some star ∧ ¬ p.stops depth

end GpnPattern

namespace GpnScan

variable {depth : ℕ} {patterns : List GpnPattern}

theorem scanAll_concat (p : GpnPattern) :
    scanAll depth (patterns ++ [p]) = scan depth (scanAll depth patterns) p := by
  rw [scanAll, List.foldl_append]
  rfl

theorem scan_children (s : GpnScan) (p : GpnPattern) : (scan depth s p).children
    = ((p.childKey depth).map fun k => s.children.push k p).getD s.children := by
  unfold scan GpnPattern.childKey
  cases p.segment depth with
  | none => cases p.refreshes depth <;> simp
  | some k =>
      cases p.refreshes depth <;> by_cases hstop : p.stops depth = true <;>
        by_cases hstar : k = star <;> simp [hstop, hstar, Option.filter]

theorem scan_wildcardChildren (s : GpnScan) (p : GpnPattern) : (scan depth s p).wildcardChildren
    = s.wildcardChildren ++ if p.underStar depth then [p] else [] := by
  unfold scan GpnPattern.underStar
  cases p.segment depth with
  | none => cases p.refreshes depth <;> simp
  | some k =>
      cases p.refreshes depth <;> by_cases hstop : p.stops depth = true <;>
        by_cases hstar : k = star <;> simp [hstop, hstar]

theorem scan_gpnCount (s : GpnScan) (p : GpnPattern) :
    (scan depth s p).gpnCount = if p.refreshes depth then 1 else s.gpnCount := by
  unfold scan
  cases p.segment depth with
  | none => cases p.refreshes depth <;> rfl
  | some k =>
      cases p.refreshes depth <;> by_cases hstop : p.stops depth = true <;>
        by_cases hstar : k = star <;> simp [hstop, hstar]

theorem scanAll_children :
    (scanAll depth patterns).children = InsMap.groups (GpnPattern.childKey depth) patterns := by
  induction patterns using List.reverseRecOn with
  | nil => rfl
  | append_singleton patterns p ih =>
      rw [scanAll_concat, scan_children, ih, InsMap.groups_concat]

theorem scanAll_wildcardChildren :
    (scanAll depth patterns).wildcardChildren = patterns.filter (GpnPattern.underStar depth) := by
  induction patterns using List.reverseRecOn with
  | nil => rfl
  | append_singleton patterns p ih =>
      rw [scanAll_concat, scan_wildcardChildren, ih, List.filter_append, List.filter_singleton]
      cases p.underStar depth <;> rfl

theorem scanAll_gpnCount : (scanAll depth patterns).gpnCount
    = if ∃ p ∈ patterns, p.refreshes depth then 1 else 0 := by
  induction patterns using List.reverseRecOn with
  | nil => rfl
  | append_singleton patterns p ih =>
      rw [scanAll_concat, scan_gpnCount, ih]
      by_cases hp : p.refreshes depth = true
      · rw [if_pos hp, if_pos ⟨p, by simp, hp⟩]
      · rw [if_neg hp]
        refine if_congr ⟨?_, ?_⟩ rfl rfl
        · rintro ⟨r, hr, href⟩
          exact ⟨r, List.mem_append_left _ hr, href⟩
        · rintro ⟨r, hr, href⟩
          rcases List.mem_append.mp hr with hr | hr
          · exact ⟨r, hr, href⟩
          · exact absurd (List.mem_singleton.mp hr ▸ href) hp

end GpnScan

theorem mem_le_longest {patterns : List GpnPattern} {p : GpnPattern} (hp : p ∈ patterns) :
    p.1.length ≤ longest patterns := by
  induction patterns with
  | nil => cases hp
  | cons r patterns ih =>
      rcases List.mem_cons.mp hp with rfl | hp
      · exact le_max_left _ _
      · exact (ih hp).trans (le_max_right _ _)

/-- One level of the recursion, with the sum over the children. -/
theorem estimateFrom_succ (fuel depth : ℕ) (patterns : List GpnPattern) : ∃ wildcardGpnCount,
    (patterns.filter (GpnPattern.underStar depth) = [] → wildcardGpnCount = 0)
      ∧ estimateFrom (fuel + 1) patterns depth
        = (if ∃ p ∈ patterns, p.refreshes depth then 1 else 0)
          + (∑ k ∈ (InsMap.groups (GpnPattern.childKey depth) patterns).keys.toFinset,
              estimateFrom fuel (InsMap.group (GpnPattern.childKey depth) k patterns
                ++ patterns.filter (GpnPattern.underStar depth)) (depth + 1))
          + max 0 (wildcardGpnCount
            - ∑ k ∈ (InsMap.groups (GpnPattern.childKey depth) patterns).keys.toFinset,
              estimateFrom fuel (InsMap.group (GpnPattern.childKey depth) k patterns
                ++ patterns.filter (GpnPattern.underStar depth)) (depth + 1)) := by
  set m := InsMap.groups (GpnPattern.childKey depth) patterns with hm
  have hcounts : (m.entries.map fun e =>
      estimateFrom fuel (e.2 ++ patterns.filter (GpnPattern.underStar depth)) (depth + 1)).sum
      = ∑ k ∈ m.keys.toFinset, estimateFrom fuel (InsMap.group (GpnPattern.childKey depth) k
          patterns ++ patterns.filter (GpnPattern.underStar depth)) (depth + 1) := by
    rw [List.sum_toFinset _ (show m.keys.Nodup from m.nodup), InsMap.keys, List.map_map]
    congr 1
    refine List.map_congr_left fun e he => ?_
    rw [Function.comp_apply, (InsMap.mem_entries_groups.mp he).1]
  refine ⟨if ¬ (GpnScan.scanAll depth patterns).wildcardDiscovered
    ∧ (GpnScan.scanAll depth patterns).wildcardChildren ≠ [] then
      estimateFrom fuel (GpnScan.scanAll depth patterns).wildcardChildren (depth + 1)
        * WILDCARD_MULTIPLIER else 0, ?_, ?_⟩
  · intro hnil
    rw [GpnScan.scanAll_wildcardChildren, hnil, if_neg (by simp)]
  · rw [← hcounts, estimateFrom, GpnScan.scanAll_gpnCount, GpnScan.scanAll_wildcardChildren,
      GpnScan.scanAll_children, ← hm]

theorem estimateFrom_nonneg (fuel : ℕ) (patterns : List GpnPattern) (depth : ℕ) :
    0 ≤ estimateFrom fuel patterns depth := by
  induction fuel generalizing patterns depth with
  | zero => exact le_rfl
  | succ fuel ih =>
      obtain ⟨w, -, heq⟩ := estimateFrom_succ fuel depth patterns
      rw [heq]
      refine add_nonneg (add_nonneg ?_ (Finset.sum_nonneg fun k _ => ih _ _)) (le_max_left _ _)
      split_ifs <;> decide

/-! ## The prefixes that have not been read -/

namespace GpnPattern

/-- No wildcards, and fragments that a path can have. -/
def Plain (p : GpnPattern) : Prop := star ∉ p.1 ∧ [] ∉ p.1

instance (p : GpnPattern) : Decidable p.Plain := inferInstanceAs (Decidable (_ ∧ _))

/-- The prefixes, from a depth on, that a pattern asks for; below a prefix that
is too deep and has not been read itself, none is counted. -/
def unread (depth : ℕ) (p : GpnPattern) : Finset Path :=
  ((Finset.range (p.1.length + 1)).filter fun i =>
    depth ≤ i ∧ p.refreshes i ∧ ∀ j < i, depth ≤ j → ¬ p.stops j).image p.1.take

theorem mem_unread {depth : ℕ} {p : GpnPattern} {q : Path} : q ∈ p.unread depth
    ↔ ∃ i, i ≤ p.1.length ∧ depth ≤ i ∧ p.refreshes i
      ∧ (∀ j < i, depth ≤ j → ¬ p.stops j) ∧ p.1.take i = q := by
  simp only [unread, Finset.mem_image, Finset.mem_filter, Finset.mem_range, Nat.lt_succ_iff,
    and_assoc]

theorem Plain.childKey {p : GpnPattern} (hp : p.Plain) {depth : ℕ} (hlt : depth < p.1.length)
    (hgo : ¬ p.stops depth) : p.childKey depth = some p.1[depth] := by
  have hmem : p.1[depth] ∈ p.1 := List.getElem_mem hlt
  have hne : p.1[depth] ≠ [] := fun heq => hp.2 (heq ▸ hmem)
  have hstar : p.1[depth] ≠ star := fun heq => hp.1 (heq ▸ hmem)
  rw [GpnPattern.childKey, if_neg hgo, segment, List.getElem?_eq_getElem hlt]
  simp [Option.filter, hne, hstar]

theorem childKey_eq {p : GpnPattern} {depth : ℕ} {k : JsString} (h : p.childKey depth = some k) :
    p.1[depth]? = some k ∧ ¬ p.stops depth := by
  unfold childKey segment at h
  split_ifs at h with hstop
  obtain ⟨h, -⟩ := Option.filter_eq_some_iff.mp h
  exact ⟨(Option.filter_eq_some_iff.mp h).1, hstop⟩

end GpnPattern

def unreadAll (depth : ℕ) (patterns : List GpnPattern) : Finset Path :=
  patterns.toFinset.biUnion (GpnPattern.unread depth)

section

variable {depth : ℕ} {patterns : List GpnPattern} {q : Path}

theorem mem_unreadAll {x : Path} :
    x ∈ unreadAll depth patterns ↔ ∃ p ∈ patterns, x ∈ p.unread depth := by
  simp only [unreadAll, Finset.mem_biUnion, List.mem_toFinset]

/-- The patterns meet at a prefix, without wildcards. -/
structure Meet (depth : ℕ) (patterns : List GpnPattern) (q : Path) : Prop where
  plain : ∀ p ∈ patterns, p.Plain
  length : ∀ p ∈ patterns, depth ≤ p.1.length
  take : ∀ p ∈ patterns, p.1.take depth = q

theorem Meet.group (h : Meet depth patterns q) (k : JsString) :
    Meet (depth + 1) (InsMap.group (GpnPattern.childKey depth) k patterns) (q ++ [k]) := by
  have hat : ∀ p ∈ InsMap.group (GpnPattern.childKey depth) k patterns,
      p ∈ patterns ∧ p.1[depth]? = some k := fun p hp =>
    ⟨(InsMap.mem_group.mp hp).1, (GpnPattern.childKey_eq (InsMap.mem_group.mp hp).2).1⟩
  refine ⟨fun p hp => h.plain p (hat p hp).1, fun p hp => ?_, fun p hp => ?_⟩
  · exact (List.getElem?_eq_some_iff.mp (hat p hp).2).1
  · rw [List.take_add_one, h.take p (hat p hp).1, (hat p hp).2]
    rfl

/-- What the patterns of a child ask for goes on with its fragment. -/
theorem getElem?_of_mem_unread {k : JsString} {x : Path}
    (hx : x ∈ unreadAll (depth + 1) (InsMap.group (GpnPattern.childKey depth) k patterns)) :
    x[depth]? = some k := by
  obtain ⟨p, hp, hx⟩ := mem_unreadAll.mp hx
  obtain ⟨i, hi, hdepth, -, -, rfl⟩ := GpnPattern.mem_unread.mp hx
  rw [List.getElem?_take, if_pos (by omega)]
  exact (GpnPattern.childKey_eq (InsMap.mem_group.mp hp).2).1

theorem unreadAll_eq (h : Meet depth patterns q) : unreadAll depth patterns
    = (if ∃ p ∈ patterns, p.refreshes depth then {q} else ∅)
      ∪ (InsMap.groups (GpnPattern.childKey depth) patterns).keys.toFinset.biUnion fun k =>
          unreadAll (depth + 1) (InsMap.group (GpnPattern.childKey depth) k patterns) := by
  ext x
  rw [mem_unreadAll, Finset.mem_union, Finset.mem_biUnion]
  constructor
  · rintro ⟨p, hp, hx⟩
    obtain ⟨i, hi, hdepth, href, hgo, rfl⟩ := GpnPattern.mem_unread.mp hx
    rcases hdepth.eq_or_lt with rfl | hlt
    · left
      rw [if_pos ⟨p, hp, href⟩, h.take p hp]
      exact Finset.mem_singleton_self q
    · right
      have hkey := (h.plain p hp).childKey (lt_of_lt_of_le hlt hi) (hgo depth hlt le_rfl)
      refine ⟨_, List.mem_toFinset.mpr (InsMap.mem_keys_groups.mpr ⟨p, hp, hkey⟩), ?_⟩
      refine mem_unreadAll.mpr ⟨p, InsMap.mem_group.mpr ⟨hp, hkey⟩, ?_⟩
      exact GpnPattern.mem_unread.mpr
        ⟨i, hi, hlt, href, fun j hj hle => hgo j hj (by omega), rfl⟩
  · rintro (hx | ⟨k, -, hx⟩)
    · split_ifs at hx with hany
      · obtain ⟨p, hp, href⟩ := hany
        obtain rfl := Finset.mem_singleton.mp hx
        exact ⟨p, hp, GpnPattern.mem_unread.mpr ⟨depth, h.length p hp, le_rfl, href,
          fun j hj hle => absurd hj (by omega), h.take p hp⟩⟩
      · simp at hx
    · obtain ⟨p, hp, hx⟩ := mem_unreadAll.mp hx
      obtain ⟨hp, hkey⟩ := InsMap.mem_group.mp hp
      obtain ⟨i, hi, hdepth, href, hgo, rfl⟩ := GpnPattern.mem_unread.mp hx
      refine ⟨p, hp, GpnPattern.mem_unread.mpr ⟨i, hi, by omega, href, fun j hj hle => ?_, rfl⟩⟩
      rcases hle.eq_or_lt with rfl | hlt
      · exact (GpnPattern.childKey_eq hkey).2
      · exact hgo j hj hlt

theorem card_unreadAll (h : Meet depth patterns q) : ((unreadAll depth patterns).card : ℤ)
    = (if ∃ p ∈ patterns, p.refreshes depth then 1 else 0)
      + ∑ k ∈ (InsMap.groups (GpnPattern.childKey depth) patterns).keys.toFinset,
          ((unreadAll (depth + 1)
            (InsMap.group (GpnPattern.childKey depth) k patterns)).card : ℤ) := by
  have hpairwise : ∀ k ∈ (InsMap.groups (GpnPattern.childKey depth) patterns).keys.toFinset,
      ∀ k' ∈ (InsMap.groups (GpnPattern.childKey depth) patterns).keys.toFinset, k ≠ k' →
        Disjoint (unreadAll (depth + 1) (InsMap.group (GpnPattern.childKey depth) k patterns))
          (unreadAll (depth + 1) (InsMap.group (GpnPattern.childKey depth) k' patterns)) := by
    intro k _ k' _ hne
    refine Finset.disjoint_left.mpr fun x hx hx' => hne ?_
    exact Option.some.inj ((getElem?_of_mem_unread hx).symm.trans (getElem?_of_mem_unread hx'))
  have hdisjoint : Disjoint (if ∃ p ∈ patterns, p.refreshes depth then {q} else ∅)
      ((InsMap.groups (GpnPattern.childKey depth) patterns).keys.toFinset.biUnion fun k =>
        unreadAll (depth + 1) (InsMap.group (GpnPattern.childKey depth) k patterns)) := by
    refine Finset.disjoint_left.mpr fun x hx hx' => ?_
    split_ifs at hx with hany
    · obtain ⟨p, hp, -⟩ := hany
      obtain rfl := Finset.mem_singleton.mp hx
      obtain ⟨k, -, hx'⟩ := Finset.mem_biUnion.mp hx'
      have hlt := (List.getElem?_eq_some_iff.mp (getElem?_of_mem_unread hx')).1
      rw [← h.take p hp, List.length_take] at hlt
      omega
    · simp at hx
  rw [unreadAll_eq h, Finset.card_union_of_disjoint hdisjoint, Finset.card_biUnion hpairwise]
  rw [Nat.cast_add, Nat.cast_sum]
  congr 1
  split_ifs <;> rfl

/-- Without wildcards, from any depth. -/
theorem estimateFrom_plain {fuel : ℕ} (h : Meet depth patterns q)
    (hfuel : ∀ p ∈ patterns, p.1.length < depth + fuel) :
    estimateFrom fuel patterns depth = (unreadAll depth patterns).card := by
  induction fuel generalizing depth patterns q with
  | zero =>
      have hnil : patterns = [] := by
        refine List.eq_nil_iff_forall_not_mem.mpr fun p hp => ?_
        have hlt := hfuel p hp
        have hle := h.length p hp
        omega
      rw [hnil]
      rfl
  | succ fuel ih =>
      obtain ⟨w, hw, heq⟩ := estimateFrom_succ fuel depth patterns
      have hstar : patterns.filter (GpnPattern.underStar depth) = [] := by
        refine List.filter_eq_nil_iff.mpr fun p hp hunder => (h.plain p hp).1 ?_
        rw [GpnPattern.underStar, decide_eq_true_eq] at hunder
        exact List.mem_of_getElem? (Option.filter_eq_some_iff.mp hunder.1).1
      have hsum : ∀ k, estimateFrom fuel (InsMap.group (GpnPattern.childKey depth) k patterns)
          (depth + 1) = (unreadAll (depth + 1)
            (InsMap.group (GpnPattern.childKey depth) k patterns)).card := by
        intro k
        refine ih (h.group k) fun p hp => ?_
        have hlt := hfuel p (InsMap.mem_group.mp hp).1
        omega
      rw [heq, hw hstar, hstar, card_unreadAll h]
      simp only [List.append_nil, hsum]
      rw [max_eq_left, add_zero]
      rw [zero_sub, neg_nonpos]
      exact Finset.sum_nonneg fun k _ => Int.natCast_nonneg _

/-- The patterns without wildcards among others. -/
theorem card_le_estimateFrom {fuel : ℕ} {plain : List GpnPattern} (hsub : plain ⊆ patterns)
    (h : Meet depth plain q) (hfuel : ∀ p ∈ plain, p.1.length < depth + fuel) :
    ((unreadAll depth plain).card : ℤ) ≤ estimateFrom fuel patterns depth := by
  induction fuel generalizing depth patterns plain q with
  | zero =>
      have hnil : plain = [] := by
        refine List.eq_nil_iff_forall_not_mem.mpr fun p hp => ?_
        have hlt := hfuel p hp
        have hle := h.length p hp
        omega
      rw [hnil]
      rfl
  | succ fuel ih =>
      obtain ⟨w, -, heq⟩ := estimateFrom_succ fuel depth patterns
      rw [heq, card_unreadAll h]
      refine le_add_of_le_of_nonneg (add_le_add ?_ ?_) (le_max_left _ _)
      · by_cases hany : ∃ p ∈ plain, p.refreshes depth
        · obtain ⟨p, hp, href⟩ := hany
          rw [if_pos ⟨p, hp, href⟩, if_pos ⟨p, hsub hp, href⟩]
        · rw [if_neg hany]
          split_ifs <;> decide
      · refine (Finset.sum_le_sum fun k _ => ?_).trans (Finset.sum_le_sum_of_subset_of_nonneg ?_
          fun k _ _ => estimateFrom_nonneg _ _ _)
        · refine ih ?_ (h.group k) fun p hp => ?_
          · intro p hp
            obtain ⟨hp, hkey⟩ := InsMap.mem_group.mp hp
            exact List.mem_append_left _ (InsMap.mem_group.mpr ⟨hsub hp, hkey⟩)
          · have hlt := hfuel p (InsMap.mem_group.mp hp).1
            omega
        · intro k hk
          obtain ⟨p, hp, hkey⟩ := InsMap.mem_keys_groups.mp (List.mem_toFinset.mp hk)
          exact List.mem_toFinset.mpr (InsMap.mem_keys_groups.mpr ⟨p, hsub hp, hkey⟩)

end

/-- The estimate counts the prefixes that the patterns without wildcards have
not read, exactly if there are no others. -/
theorem estimateGpnCount_counts (patterns : List GpnPattern) :
    ((unreadAll 0 (patterns.filter fun p => p.Plain)).card : ℤ) ≤ estimateGpnCount patterns
      ∧ ((∀ p ∈ patterns, p.Plain) →
          estimateGpnCount patterns = (unreadAll 0 patterns).card) := by
  constructor
  · refine @card_le_estimateFrom 0 patterns [] _ _ (List.filter_subset_self _) ⟨?_, ?_, ?_⟩ ?_
    · exact fun p hp => of_decide_eq_true (List.mem_filter.mp hp).2
    · exact fun p _ => Nat.zero_le _
    · exact fun p _ => List.take_zero
    · intro p hp
      have hle := mem_le_longest (List.mem_filter.mp hp).1
      omega
  · intro hplain
    refine @estimateFrom_plain 0 patterns [] _ ⟨hplain, ?_, ?_⟩ ?_
    · exact fun p _ => Nat.zero_le _
    · exact fun p _ => List.take_zero
    · intro p hp
      have hle := mem_le_longest hp
      omega

/-- `Device.` is counted once, though both patterns ask for it. -/
theorem estimateGpnCount_two :
    estimateGpnCount [([js "Device", js "A"], Mask.bit 1),
      ([js "Device", js "B"], Mask.bit 1 ||| Mask.bit 2)] = 2 :=
  ((estimateGpnCount_counts _).2 (by decide)).trans (by decide)

end GenieAcs
