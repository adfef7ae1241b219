import GenieAcs.ParameterNames

/-!
# Filled lists of parameters as trees

A filled list is a tree where each parent stands in front of what is below it.
The walk through the list keeps to that as long as neighbours that have parted do
not meet again: it takes a segment they share at one place for the end of their
common beginning, and it has no predecessor to compare the first path with.
-/

namespace GenieAcs

namespace ParameterName

variable {e f g : ParameterName} {rest list : List ParameterName} {R p : Path} {k : Nat}

/-! ## Closed lists -/

/-- Every parent below the root is listed before, as an object. `before` says what
is so listed in front of the list. -/
def Closed (R : Path) (before : Path → Prop) (list : List ParameterName) : Prop :=
  ∀ (j : Nat) (e : ParameterName), list[j]? = some e → ∀ p, p <+: e.path → p ≠ e.path → R.length < p.length →
    before p ∨ ∃ i < j, ∃ f : ParameterName, list[i]? = some f ∧ f.path = p ∧ f.object = true

/-- Listed as an object, in front of the list or in it. -/
def With (before : Path → Prop) (list : List ParameterName) (p : Path) : Prop :=
  before p ∨ ∃ f ∈ list, f.path = p ∧ f.object = true

theorem closed_nil (before : Path → Prop) : Closed R before [] := by
  intro j e hj
  cases hj

theorem closed_cons {before : Path → Prop} : Closed R before (e :: list)
    ↔ (∀ p, p <+: e.path → p ≠ e.path → R.length < p.length → before p)
      ∧ Closed R (With before [e]) list := by
  constructor
  · intro h
    refine ⟨fun p hp hne hR => ?_, fun j g hj p hp hne hR => ?_⟩
    · rcases h 0 e rfl p hp hne hR with hb | ⟨i, hi, -⟩
      · exact hb
      · exact absurd hi (Nat.not_lt_zero i)
    · rcases h (j + 1) g hj p hp hne hR with hb | ⟨i, hi, f, hf, hpath, hobj⟩
      · exact Or.inl (Or.inl hb)
      · cases i with
        | zero =>
            cases hf
            exact Or.inl (Or.inr ⟨e, List.mem_singleton_self e, hpath, hobj⟩)
        | succ i => exact Or.inr ⟨i, by omega, f, hf, hpath, hobj⟩
  · rintro ⟨hhead, htail⟩ j g hj p hp hne hR
    cases j with
    | zero =>
        cases hj
        exact Or.inl (hhead p hp hne hR)
    | succ j =>
        rcases htail j g hj p hp hne hR with (hb | ⟨f, hf, hpath, hobj⟩) | ⟨i, hi, f, hf, hpath, hobj⟩
        · exact Or.inl hb
        · cases List.mem_singleton.mp hf
          exact Or.inr ⟨0, by omega, e, rfl, hpath, hobj⟩
        · exact Or.inr ⟨i + 1, by omega, f, hf, hpath, hobj⟩

theorem closed_congr {before before' : Path → Prop} (h : ∀ p, before p ↔ before' p) :
    Closed R before list ↔ Closed R before' list := by
  obtain rfl : before = before' := funext fun p => propext (h p)
  exact Iff.rfl

theorem closed_append {before : Path → Prop} {l l' : List ParameterName} :
    Closed R before (l ++ l') ↔ Closed R before l ∧ Closed R (With before l) l' := by
  induction l generalizing before with
  | nil =>
      have hnil : ∀ p, before p ↔ With before [] p := fun p =>
        ⟨Or.inl, fun h => h.resolve_right fun ⟨f, hf, _⟩ => absurd hf List.not_mem_nil⟩
      rw [List.nil_append, closed_congr hnil]
      exact ⟨fun h => ⟨closed_nil _, h⟩, fun h => h.2⟩
  | cons e l ih =>
      have hwith : ∀ p, With (With before [e]) l p ↔ With before (e :: l) p := by
        intro p
        rw [With, With, With, or_assoc]
        refine or_congr_right ?_
        constructor
        · rintro (⟨f, hf, h⟩ | ⟨f, hf, h⟩)
          · exact ⟨f, List.mem_singleton.mp hf ▸ List.mem_cons_self, h⟩
          · exact ⟨f, List.mem_cons_of_mem e hf, h⟩
        · rintro ⟨f, hf, h⟩
          rcases List.mem_cons.mp hf with rfl | hf
          · exact Or.inl ⟨f, List.mem_singleton_self f, h⟩
          · exact Or.inr ⟨f, hf, h⟩
      rw [List.cons_append, closed_cons, ih, closed_cons, closed_congr hwith, and_assoc]

/-- Where the comparison with the predecessor ends, for all but the last segment. -/
theorem missing_parts {prev cur : Path} {object : Bool} (h : Stops prev cur (cur.length - 1) k object)
    (hparts : ∀ i, i + 1 < cur.length → i < prev.length → prev[i]? = cur[i]? →
      prev.take (i + 1) = cur.take (i + 1)) : prev.take k = cur.take k ∧ k ≤ prev.length := by
  rcases h.meets with rfl | ⟨hle, hat⟩
  · exact ⟨rfl, Nat.zero_le _⟩
  · refine ⟨?_, hle⟩
    cases k with
    | zero => rfl
    | succ k =>
        have hk := h.le
        exact hparts k (by omega) (by omega) hat

/-- The first element of a filled list is that of the list, up to its flag. -/
theorem fill_head (e : ParameterName) (rest : List ParameterName) :
    ∃ e' tail, fill (e :: rest) = e' :: tail ∧ e'.path = e.path := by
  cases rest with
  | nil => exact ⟨e, [], rfl, rfl⟩
  | cons f rest =>
      refine ⟨_, _, rfl, ?_⟩
      split <;> rfl

/-- The predecessor of an element, with the flag that the comparison sets. -/
def flagged (e : ParameterName) (object : Bool) : ParameterName :=
  if object then { e with object := true } else e

theorem flagged_path (e : ParameterName) (object : Bool) : (flagged e object).path = e.path := by
  unfold flagged
  split <;> rfl

theorem fill_cons (e f : ParameterName) (rest : List ParameterName) :
    fill (e :: f :: rest) = flagged e (missing e.path f.path (f.path.length - 1)).2
      :: ((missing e.path f.path (f.path.length - 1)).1 ++ fill (f :: rest)) := rfl

theorem eq_take {p q : Path} (h : p <+: q) (hne : p ≠ q) :
    p.length < q.length ∧ p = q.take p.length := by
  have htake := List.prefix_iff_eq_take.mp h
  refine ⟨lt_of_le_of_ne h.length_le fun hlen => hne ?_, htake⟩
  rw [hlen, List.take_length] at htake
  exact htake

section

variable {object : Bool} {added : List ParameterName} {before : Path → Prop}
  (hstops : Stops e.path f.path (f.path.length - 1) k object)
  (hadded : added = (List.range (f.path.length - 1 - k)).map fun j =>
    (⟨f.path.take (k + 1 + j), true, true⟩ : ParameterName))

include hadded in
theorem mem_added : g ∈ added ↔ ∃ m, k < m ∧ m ≤ f.path.length - 1 ∧ g = ⟨f.path.take m, true, true⟩ := by
  rw [hadded, List.mem_map]
  constructor
  · rintro ⟨j, hj, rfl⟩
    have hlt := List.mem_range.mp hj
    exact ⟨k + 1 + j, by omega, by omega, rfl⟩
  · rintro ⟨m, hk, hm, rfl⟩
    exact ⟨m - k - 1, List.mem_range.mpr (by omega), by rw [show k + 1 + (m - k - 1) = m by omega]⟩

include hstops in
/-- What two neighbours have in common is listed in front of them. -/
theorem common_listed
    (hparents : ∀ p, p <+: e.path → p ≠ e.path → R.length < p.length → before p)
    (hparts : Parts e f) {l : Nat} (hl : l ≤ k) (hR : R.length < l) :
    With before [flagged e object] (f.path.take l) := by
  obtain ⟨htake, hk⟩ := missing_parts hstops hparts
  have heq : f.path.take l = e.path.take l := by
    rw [← Nat.min_eq_left hl, ← List.take_take, ← List.take_take, htake]
  rw [heq]
  by_cases hlast : l = e.path.length
  · have hobject := hstops.object.mpr ⟨by omega, by omega⟩
    refine Or.inr ⟨flagged e object, List.mem_singleton_self _, ?_, ?_⟩
    · rw [flagged_path, hlast, List.take_length]
    · rw [flagged, if_pos hobject]
  · have hlen : (e.path.take l).length = l := by
      rw [List.length_take]
      omega
    refine Or.inl (hparents _ (List.take_prefix l e.path) (fun heq => ?_) (by omega))
    rw [heq] at hlen
    exact hlast hlen.symm

include hstops hadded in
theorem parents_listed
    (hparents : ∀ p, p <+: e.path → p ≠ e.path → R.length < p.length → before p)
    (hparts : Parts e f) (p : Path) (hp : p <+: f.path) (hne : p ≠ f.path)
    (hR : R.length < p.length) : With (With before [flagged e object]) added p := by
  obtain ⟨hlt, heq⟩ := eq_take hp hne
  by_cases hl : p.length ≤ k
  · rw [heq]
    exact Or.inl (common_listed hstops hparents hparts hl hR)
  · exact Or.inr ⟨⟨f.path.take p.length, true, true⟩,
      (mem_added hadded).mpr ⟨p.length, by omega, by omega, rfl⟩, heq.symm, rfl⟩

include hstops hadded in
theorem added_closed
    (hparents : ∀ p, p <+: e.path → p ≠ e.path → R.length < p.length → before p)
    (hparts : Parts e f) : Closed R (With before [flagged e object]) added := by
  intro j g hj p hp hne hR
  rw [hadded, List.getElem?_map] at hj
  obtain ⟨i, hi, rfl⟩ := Option.map_eq_some_iff.mp hj
  obtain ⟨hlt, hij⟩ := List.getElem?_eq_some_iff.mp hi
  rw [List.getElem_range] at hij
  subst hij
  rw [List.length_range] at hlt
  obtain ⟨hplen, heq⟩ := eq_take hp hne
  simp only [List.length_take] at hplen
  have hp' : p = f.path.take p.length := by
    rw [List.take_take, Nat.min_eq_left (by omega)] at heq
    exact heq
  by_cases hl : p.length ≤ k
  · rw [hp']
    exact Or.inl (common_listed hstops hparents hparts hl hR)
  · refine Or.inr ⟨p.length - k - 1, by omega, ⟨f.path.take p.length, true, true⟩, ?_, hp'.symm, rfl⟩
    rw [hadded, List.getElem?_map, List.getElem?_range (by omega)]
    have hindex : k + 1 + (p.length - k - 1) = p.length := by omega
    rw [Option.map_some, hindex]

include hstops hadded in
/-- Where neighbours share a segment again after they parted, a parent is missing. -/
theorem parts_of_listed (hle : e.path ≤ f.path) (hRe : R <+: e.path) (hRf : R <+: f.path)
    (hbefore : ∀ p, before p → p ≤ e.path)
    (h : ∀ p, p <+: f.path → p ≠ f.path → R.length < p.length →
      With (With before [flagged e object]) added p) : Parts e f := by
  intro i hi hie heq
  by_contra hapart
  have hlen : (f.path.take (i + 1)).length = i + 1 := by
    rw [List.length_take]
    omega
  have hR : R.length < i + 1 := by
    by_contra hle
    refine hapart ?_
    obtain ⟨s, hs⟩ := hRe
    obtain ⟨t, ht⟩ := hRf
    rw [← hs, ← ht, List.take_append_of_le_length (by omega), List.take_append_of_le_length (by omega)]
  have hk : i < k := by
    by_contra hik
    exact hstops.apart i (by omega) (by omega) hie heq
  -- the parent would have to be the predecessor or in front of it
  have habove : ¬ f.path.take (i + 1) ≤ e.path := by
    intro hbelow
    have hprefix := prefix_of_between (s := f.path.drop (i + 1)) hbelow
      (by rw [List.take_append_drop]; exact hle)
    rw [List.prefix_iff_eq_take, hlen] at hprefix
    exact hapart hprefix.symm
  rcases h (f.path.take (i + 1)) (List.take_prefix _ _) (fun heq => by rw [heq] at hlen; omega)
    (by omega) with (hb | ⟨g, hg, hpath, -⟩) | ⟨g, hg, hpath, -⟩
  · exact habove (hbefore _ hb)
  · rw [List.mem_singleton.mp hg, flagged_path] at hpath
    exact habove hpath.ge
  · obtain ⟨m, hkm, hm, rfl⟩ := (mem_added hadded).mp hg
    have hm' := congrArg List.length hpath
    simp only [List.length_take] at hm'
    omega

include hadded in
theorem listed_le (hle : e.path ≤ f.path) (hbefore : ∀ p, before p → p ≤ e.path) {p : Path}
    (h : With (With before [flagged e object]) added p) : p ≤ f.path := by
  rcases h with (hb | ⟨g, hg, hpath, -⟩) | ⟨g, hg, hpath, -⟩
  · exact (hbefore p hb).trans hle
  · rw [List.mem_singleton.mp hg, flagged_path] at hpath
    exact hpath ▸ hle
  · obtain ⟨m, hkm, hm, rfl⟩ := (mem_added hadded).mp hg
    exact hpath ▸ take_le f.path m

end

/-- With its parents listed in front of it, a sorted list is closed when filled
in if and only if its neighbours part for good. -/
theorem closed_fill {before : Path → Prop} (hsorted : (e :: rest).Pairwise fun e f => e.path ≤ f.path)
    (hroot : ∀ g ∈ e :: rest, R <+: g.path) (hbefore : ∀ p, before p → p ≤ e.path)
    (hparents : ∀ p, p <+: e.path → p ≠ e.path → R.length < p.length → before p) :
    Closed R before (fill (e :: rest)) ↔ (e :: rest).IsChain Parts := by
  induction rest generalizing e before with
  | nil =>
      refine iff_of_true (closed_cons.mpr ⟨hparents, closed_nil _⟩) ?_
      exact List.IsChain.singleton e
  | cons f rest ih =>
      obtain ⟨k, hstops, hadded⟩ := missing_spec e.path f.path (f.path.length - 1)
      obtain ⟨hef, hsorted⟩ := List.pairwise_cons.mp hsorted
      have hle := hef f List.mem_cons_self
      have hroot' : ∀ g ∈ f :: rest, R <+: g.path := fun g hg =>
        hroot g (List.mem_cons_of_mem e hg)
      rw [fill_cons, closed_cons, closed_append, List.isChain_cons_cons]
      obtain ⟨f', tail, hfill, hf'⟩ := fill_head f rest
      constructor
      · rintro ⟨-, -, hrest⟩
        have hlisted := hrest
        rw [hfill, closed_cons, hf'] at hlisted
        have hparts := parts_of_listed hstops hadded hle (hroot e List.mem_cons_self)
          (hroot' f List.mem_cons_self) hbefore hlisted.1
        exact ⟨hparts, (ih hsorted hroot' (fun p hp => listed_le hadded hle hbefore hp)
          hlisted.1).mp hrest⟩
      · rintro ⟨hparts, hchain⟩
        have hlisted := parents_listed hstops hadded hparents hparts
        refine ⟨?_, added_closed hstops hadded hparents hparts,
          (ih hsorted hroot' (fun p hp => listed_le hadded hle hbefore hp) hlisted).mpr hchain⟩
        rw [flagged_path]
        exact hparents

/-! ## What is kept -/

/-- What is put in between two neighbours, in terms of their paths. -/
theorem added_between (hle : e.path ≤ f.path)
    (hg : g ∈ (missing e.path f.path (f.path.length - 1)).1) :
    e.path < g.path ∧ g.path < f.path := by
  obtain ⟨k, hstops, hadded⟩ := missing_spec e.path f.path (f.path.length - 1)
  obtain ⟨m, hk, hm, rfl⟩ := (mem_added hadded).mp hg
  exact ⟨lt_take hstops hle (Nat.sub_le _ _) hk hm, take_lt (by omega)⟩

theorem le_fill (hsorted : (e :: rest).Pairwise fun e f => e.path ≤ f.path) :
    ∀ g ∈ fill (e :: rest), e.path ≤ g.path := by
  induction rest generalizing e with
  | nil =>
      intro g hg
      rw [List.mem_singleton.mp hg]
  | cons f rest ih =>
      obtain ⟨hef, hsorted⟩ := List.pairwise_cons.mp hsorted
      have hle := hef f List.mem_cons_self
      intro g hg
      rw [fill_cons, List.mem_cons, List.mem_append] at hg
      rcases hg with rfl | hg | hg
      · rw [flagged_path]
      · exact (added_between hle hg).1.le
      · exact hle.trans (ih hsorted g hg)

/-- Every path of the list is in the filled list. -/
theorem fill_keeps (list : List ParameterName) (hg : g ∈ list) :
    ∃ g' ∈ fill list, g'.path = g.path := by
  induction list with
  | nil => cases hg
  | cons e rest ih =>
      obtain ⟨e', tail, hfill, he'⟩ := fill_head e rest
      rcases List.mem_cons.mp hg with rfl | hg
      · exact ⟨e', hfill ▸ List.mem_cons_self, he'⟩
      · cases rest with
        | nil => cases hg
        | cons f rest =>
            obtain ⟨g', hg', hpath⟩ := ih hg
            rw [fill_cons]
            exact ⟨g', List.mem_cons_of_mem _ (List.mem_append_right _ hg'), hpath⟩

/-- A flag is set for the sake of what is below the path. -/
theorem flagged_leaf (hparts : Parts e f) (hleaf : ¬ (e.path <+: f.path ∧ e.path ≠ f.path)) :
    flagged e (missing e.path f.path (f.path.length - 1)).2 = e := by
  obtain ⟨k, hstops, -⟩ := missing_spec e.path f.path (f.path.length - 1)
  cases hobject : (missing e.path f.path (f.path.length - 1)).2 with
  | false => rfl
  | true =>
      rw [hobject] at hstops
      obtain ⟨hk, hlen⟩ := hstops.object.mp rfl
      obtain ⟨htake, -⟩ := missing_parts hstops hparts
      rw [hlen, List.take_length] at htake
      refine absurd ⟨htake ▸ List.take_prefix _ _, fun heq => ?_⟩ hleaf
      have hle := hstops.le
      rw [← heq] at hle
      omega

/-- The elements of a path with nothing below it stay as they are. -/
theorem fill_filter {q : Path} (hsorted : (e :: rest).Pairwise fun e f => e.path ≤ f.path)
    (hchain : (e :: rest).IsChain Parts)
    (hleaf : ∀ g ∈ e :: rest, ¬ (q <+: g.path ∧ q ≠ g.path))
    (hq : q < e.path ∨ ∃ g ∈ e :: rest, g.path = q) :
    (fill (e :: rest)).filter (fun g => g.path = q) = (e :: rest).filter (fun g => g.path = q) := by
  induction rest generalizing e with
  | nil => rfl
  | cons f rest ih =>
      obtain ⟨hef, hsorted⟩ := List.pairwise_cons.mp hsorted
      have hle := hef f List.mem_cons_self
      obtain ⟨hparts, hchain⟩ := List.isChain_cons_cons.mp hchain
      have hq' : q < f.path ∨ ∃ g ∈ f :: rest, g.path = q := by
        rcases hq with hlt | ⟨g, hg, rfl⟩
        · exact Or.inl (hlt.trans_le hle)
        · rcases List.mem_cons.mp hg with rfl | hg
          · rcases lt_or_eq_of_le hle with hlt | heq
            · exact Or.inl hlt
            · exact Or.inr ⟨f, List.mem_cons_self, heq.symm⟩
          · exact Or.inr ⟨g, hg, rfl⟩
      have hnone : (missing e.path f.path (f.path.length - 1)).1.filter (fun g => g.path = q) = [] := by
        refine List.filter_eq_nil_iff.mpr fun g hg heq => ?_
        obtain ⟨hlt, hgt⟩ := added_between hle hg
        rw [of_decide_eq_true heq] at hlt hgt
        rcases hq' with hbelow | ⟨g', hg', rfl⟩
        · rcases hq with hlt' | ⟨g', hg', rfl⟩
          · exact lt_asymm hlt hlt'
          · rcases List.mem_cons.mp hg' with rfl | hg'
            · exact lt_irrefl _ hlt
            · rcases List.mem_cons.mp hg' with rfl | hg'
              · exact lt_irrefl _ hbelow
              · exact absurd ((List.pairwise_cons.mp hsorted).1 g' hg') (not_le.mpr hbelow)
        · rcases List.mem_cons.mp hg' with rfl | hg'
          · exact lt_irrefl _ hgt
          · exact absurd ((List.pairwise_cons.mp hsorted).1 g' hg') (not_le.mpr hgt)
      have hrest := ih hsorted hchain (fun g hg => hleaf g (List.mem_cons_of_mem e hg)) hq'
      have hpos : ∀ {g : ParameterName} (l : List ParameterName), g.path = q →
          (g :: l).filter (fun g => g.path = q) = g :: l.filter (fun g => g.path = q) :=
        fun l hg => List.filter_cons_of_pos (decide_eq_true hg)
      have hneg : ∀ {g : ParameterName} (l : List ParameterName), g.path ≠ q →
          (g :: l).filter (fun g => g.path = q) = l.filter (fun g => g.path = q) :=
        fun l hg => List.filter_cons_of_neg fun h => hg (of_decide_eq_true h)
      rw [fill_cons]
      by_cases he : e.path = q
      · rw [flagged_leaf hparts (he ▸ hleaf f (List.mem_cons_of_mem e List.mem_cons_self)),
          hpos _ he, hpos _ he, List.filter_append, hnone, List.nil_append, hrest]
      · rw [hneg _ (by rw [flagged_path]; exact he), hneg _ he, List.filter_append, hnone,
          List.nil_append, hrest]

theorem added_nodup (prev cur : Path) :
    ((missing prev cur (cur.length - 1)).1.map path).Nodup := by
  obtain ⟨k, -, hadded⟩ := missing_spec prev cur (cur.length - 1)
  rw [hadded, List.map_map]
  refine List.Nodup.map_on (fun i hi j hj heq => ?_) List.nodup_range
  have hlen := congrArg List.length (show cur.take (k + 1 + i) = cur.take (k + 1 + j) from heq)
  rw [List.length_take, List.length_take] at hlen
  have hi' := List.mem_range.mp hi
  have hj' := List.mem_range.mp hj
  omega

/-- No path is put in that is there, and none is put in twice. -/
theorem fill_count (hsorted : (e :: rest).Pairwise fun e f => e.path ≤ f.path) (q : Path) :
    ((fill (e :: rest)).map path).count q ≤ max 1 (((e :: rest).map path).count q) := by
  induction rest generalizing e with
  | nil => exact le_max_right _ _
  | cons f rest ih =>
      obtain ⟨hef, hsorted⟩ := List.pairwise_cons.mp hsorted
      have hle := hef f List.mem_cons_self
      have hrest := ih hsorted
      rw [fill_cons, List.map_cons, List.map_append, flagged_path, List.map_cons]
      have hnodup := List.nodup_iff_count_le_one.mp (added_nodup e.path f.path) q
      generalize hadded : (missing e.path f.path (f.path.length - 1)).1 = added at hnodup
      by_cases hmem : q ∈ added.map path
      · -- it lies between the two
        obtain ⟨g, hg, rfl⟩ := List.mem_map.mp hmem
        obtain ⟨hlt, hgt⟩ := added_between hle (hadded ▸ hg)
        have hnone : g.path ∉ (fill (f :: rest)).map path := by
          intro hin
          obtain ⟨g', hg', heq⟩ := List.mem_map.mp hin
          exact absurd (le_fill hsorted g' hg') (heq ▸ not_le.mpr hgt)
        rw [List.count_cons_of_ne hlt.ne, List.count_append, List.count_eq_zero_of_not_mem hnone]
        exact hnodup.trans (le_max_left _ _)
      · have hzero := List.count_eq_zero_of_not_mem hmem
        by_cases he : e.path = q
        · subst he
          rw [List.count_cons_self, List.count_cons_self, List.count_append, hzero]
          by_cases hin : e.path ∈ (fill (f :: rest)).map path
          · obtain ⟨g, hg, heq⟩ := List.mem_map.mp hin
            have hsame : e.path = f.path := le_antisymm hle (heq ▸ le_fill hsorted g hg)
            have hpos : 0 < ((f :: rest).map path).count e.path :=
              List.count_pos_iff.mpr (hsame ▸ List.mem_cons_self)
            omega
          · rw [List.count_eq_zero_of_not_mem hin]
            exact le_max_left _ _
        · rw [List.count_cons_of_ne he, List.count_cons_of_ne he, List.count_append, hzero,
            Nat.zero_add]
          exact hrest

/-! ## The filled list as a tree -/

/-- What is promised of the list that `rpcResponse` goes on with, for a response
to a request below `R`. -/
structure FormsTree (R : Path) (list filled : List ParameterName) : Prop where
  /-- Each parent below the root is listed before what is below it, as an object. -/
  parents : ∀ (j : Nat) (e : ParameterName), filled[j]? = some e →
    ∀ p, p <+: e.path → p ≠ e.path → R.length < p.length →
      ∃ i < j, ∃ f : ParameterName, filled[i]? = some f ∧ f.path = p ∧ f.object = true
  /-- A path with nothing listed below it stays as it was listed. -/
  leaves : ∀ e ∈ list, (∀ f ∈ list, ¬ (e.path <+: f.path ∧ e.path ≠ f.path)) →
    filled.filter (fun f => f.path = e.path) = list.filter (fun f => f.path = e.path)
  kept : ∀ e ∈ list, ∃ f ∈ filled, f.path = e.path
  counts : ∀ p, (filled.map path).count p ≤ max 1 ((list.map path).count p)

/-- The filled list is a tree if and only if the first path lies right below the
root and neighbours that have parted share no segment at one place again, but for
the last. -/
theorem filled_tree_iff (R : Path) (list : List ParameterName) (hroot : ∀ e ∈ list, R <+: e.path) :
    FormsTree R list (filledNames list)
      ↔ (∀ e, (sortNames list).head? = some e → e.path.length ≤ R.length + 1)
        ∧ (sortNames list).IsChain Parts := by
  have hsorted := sortNames_sorted list
  have hmem : ∀ e, e ∈ sortNames list ↔ e ∈ list := fun e => mem_sortNames
  have hfilter := sortNames_filter list
  have hcount : ∀ p, ((sortNames list).map path).count p = (list.map path).count p := fun p =>
    ((List.perm_insertionSort Ordered list).map path).count_eq p
  have hclosed : (∀ (j : Nat) (e : ParameterName), (filledNames list)[j]? = some e →
      ∀ p, p <+: e.path → p ≠ e.path → R.length < p.length →
        ∃ i < j, ∃ f : ParameterName, (filledNames list)[i]? = some f ∧ f.path = p
          ∧ f.object = true) ↔ Closed R (fun _ => False) (filledNames list) := by
    simp only [Closed, false_or]
  have hkept : ∀ e ∈ list, ∃ f ∈ filledNames list, f.path = e.path := fun e he =>
    fill_keeps _ ((hmem e).mpr he)
  unfold filledNames at hclosed hkept ⊢
  generalize sortNames list = sorted at hsorted hmem hfilter hcount hclosed hkept ⊢
  cases sorted with
  | nil =>
      have hnil : list = [] := List.eq_nil_iff_forall_not_mem.mpr fun e he =>
        List.not_mem_nil ((hmem e).mpr he)
      subst hnil
      refine iff_of_true ⟨hclosed.mpr (closed_nil _), fun e he => absurd he List.not_mem_nil, hkept,
        fun p => Nat.zero_le _⟩ ⟨fun e he => (nomatch he), List.IsChain.nil⟩
  | cons e rest =>
      have hroot' : ∀ g ∈ e :: rest, R <+: g.path := fun g hg => hroot g ((hmem g).mp hg)
      have hnone : ∀ p : Path, False → p ≤ e.path := fun _ h => h.elim
      constructor
      · intro h
        have hfill := hclosed.mp h.parents
        obtain ⟨e', tail, heq, he'⟩ := fill_head e rest
        have hhead := hfill
        rw [heq, closed_cons, he'] at hhead
        refine ⟨?_, (closed_fill hsorted hroot' hnone hhead.1).mp hfill⟩
        rintro _ ⟨⟩
        by_contra hlong
        have hlen : (e.path.take (R.length + 1)).length = R.length + 1 := by
          rw [List.length_take]
          omega
        exact hhead.1 (e.path.take (R.length + 1)) (List.take_prefix _ _)
          (fun heq => by rw [heq] at hlen; omega) (by omega)
      · rintro ⟨hfirst, hchain⟩
        have hparents : ∀ p, p <+: e.path → p ≠ e.path → R.length < p.length → False := by
          intro p hp hne hR
          have hlt := (eq_take hp hne).1
          have hle := hfirst e rfl
          omega
        refine ⟨hclosed.mpr ((closed_fill hsorted hroot' hnone hparents).mpr hchain),
          fun f hf hleaf => ?_, hkept, fun p => ?_⟩
        · rw [← hfilter]
          exact fill_filter hsorted hchain (fun g hg => hleaf g ((hmem g).mp hg))
            (Or.inr ⟨f, (hmem f).mpr hf, rfl⟩)
        · rw [← hcount]
          exact fill_count hsorted p

def listed (p : List String) (object : Bool) : ParameterName := ⟨p.map js, object, true⟩

/-- The object `a` lists `b` without `b.c`, in any order. -/
def skipping : List ParameterName := [listed ["a", "b", "c", "d"] false, listed ["a"] false,
  listed ["a", "b"] false]

theorem filled_tree_skipping : FormsTree [] skipping (filledNames skipping) := by
  have hsort : sortNames skipping = [listed ["a"] false, listed ["a", "b"] false,
      listed ["a", "b", "c", "d"] false] := by decide +kernel
  refine (filled_tree_iff [] skipping fun e _ => List.nil_prefix).mpr ?_
  rw [hsort]
  refine ⟨?_, List.isChain_cons_cons.mpr ⟨fun i hi hi' _ => ?_,
    List.isChain_cons_cons.mpr
    ⟨fun i hi hi' _ => ?_, List.IsChain.singleton _⟩⟩⟩
  · rintro e ⟨⟩
    decide
  · obtain rfl : i = 0 := Nat.lt_one_iff.mp hi'
    rfl
  · obtain rfl | rfl : i = 0 ∨ i = 1 := by
      have hlt : i < 2 := hi'
      omega
    · rfl
    · rfl

/-- After `a.x.c` the parents of `b.x.d` are taken to be there. -/
def crossing : List ParameterName := [listed ["a"] true, listed ["a", "x"] true,
  listed ["a", "x", "c"] false, listed ["b", "x", "d"] false]

theorem filled_no_tree : ¬ ∀ (R : Path) (list : List ParameterName), (∀ e ∈ list, R <+: e.path) →
    FormsTree R list (filledNames list) := by
  intro h
  have htree := h [] crossing fun e _ => List.nil_prefix
  obtain ⟨i, -, f, hf, hpath, -⟩ := htree.parents 3 (listed ["b", "x", "d"] false)
    (by decide +kernel) [js "b"] ⟨[js "x", js "d"], rfl⟩ (by decide) (by decide)
  have hnone : ∀ f ∈ filledNames crossing, f.path ≠ [js "b"] := by decide +kernel
  exact hnone f (List.mem_of_getElem? hf) hpath

end ParameterName

end GenieAcs
