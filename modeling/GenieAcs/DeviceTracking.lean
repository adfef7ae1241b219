import GenieAcs.Device
import Mathlib.Data.List.Forall2

/-!
# Change tracking

A session runs its declarations again only when a marker it tracks is among
the changes. Nothing that `set` and the clears it returns do to a path escapes
the markers registered on the patterns that cover it, as far down as `clear`
looks.
-/

namespace GenieAcs

namespace DeviceData

/-! ## What can be tracked -/

/-- Existence, or one of the attributes. -/
abbrev Aspect := Option AttrName

def aspectBit : Aspect → Nat
  | none => 0
  | some a => a.bit

/-- What there is to see of an aspect of a path. -/
def observe (d : DeviceData) (p : Path) : Aspect → Option AttrValue
  | none => (d.attributes.get? p).map fun _ => .null
  | some a => ((d.attributes.get? p).bind (· a)).map Prod.snd

/-- A change of the aspect `x` is told with these flags. -/
def Reports (flags : Nat) (x : Aspect) : Prop :=
  flags.testBit 0 = true ∨ flags.testBit (aspectBit x) = true

theorem Reports.or_left {f : Nat} {x : Aspect} (h : Reports f x) (g : Nat) :
    Reports (f ||| g) x := by
  rcases h with h | h
  · exact Or.inl (by rw [Nat.testBit_or, h, Bool.true_or])
  · exact Or.inr (by rw [Nat.testBit_or, h, Bool.true_or])

theorem Reports.or_right {f : Nat} {x : Aspect} (h : Reports f x) (g : Nat) :
    Reports (g ||| f) x := by
  rw [Nat.or_comm]
  exact h.or_left g

theorem observe_congr {d d' : DeviceData} {p : Path}
    (h : d'.attributes.get? p = d.attributes.get? p) (x : Aspect) :
    d'.observe p x = d.observe p x := by
  cases x with
  | none => rw [observe, observe, h]
  | some a => rw [observe, observe, h]

/-- The pattern `q` has the length of `p` and allows each of its fragments. -/
def Covers (q p : Path) : Prop := List.Forall₂ (fun f g => f = g ∨ f = star) q p

theorem Covers.getElem? {q p : Path} (h : Covers q p) (i : Nat) :
    q[i]? = p[i]? ∨ q[i]? = some star := by
  induction h generalizing i with
  | nil => exact Or.inl rfl
  | cons hhead _ ih =>
      cases i with
      | zero =>
          rcases hhead with rfl | rfl
          · exact Or.inl rfl
          · exact Or.inr rfl
      | succ i => exact ih i

theorem wildcard_skipped {path : Path} {subset : Bool} (hpath : subset = true ∨ star ∉ path)
    (i : Nat) :
    (Mask.test path.wildcard i = true ∧ subset = true) ∨ Mask.test path.wildcard i = false := by
  cases hw : Mask.test path.wildcard i with
  | false => exact Or.inr rfl
  | true =>
      rcases hpath with hsub | hplain
      · exact Or.inl ⟨rfl, hsub⟩
      · rw [Path.test_of_plain hplain] at hw
        cases hw

/-- Whoever finds a path finds the patterns that cover it. -/
theorem covers_found {s : PathSet} {path p q : Path} {subset : Bool} {depth : Nat}
    (hpath : subset = true ∨ star ∉ path) (hq : q ∈ s) (hcov : Covers q p)
    (hp : p ∈ s.find path true subset depth) : q ∈ s.find path true subset depth := by
  obtain ⟨-, hge, hle, hagrees⟩ := PathSet.mem_find.mp hp
  have hlen : q.length = p.length := hcov.length_eq
  refine PathSet.mem_find.mpr ⟨hq, hlen ▸ hge, hlen ▸ hle, fun i hi => ?_⟩
  rcases wildcard_skipped hpath i with hskip | hw
  · exact Or.inl hskip
  rcases hcov.getElem? i with hsame | hstar
  · rcases hagrees i hi with hskip | heq | ⟨hs, -, heq⟩
    · exact Or.inl hskip
    · exact Or.inr (Or.inl (hsame.trans heq))
    · exact Or.inr (Or.inr ⟨hs, hw, hsame.trans heq⟩)
  · exact Or.inr (Or.inr ⟨rfl, hw, hstar⟩)

/-- A pattern that covers the path itself is found with it. -/
theorem covers_found_self {s : PathSet} {path q : Path} {subset : Bool} {depth : Nat}
    (hpath : subset = true ∨ star ∉ path) (hdepth : path.length ≤ depth) (hq : q ∈ s)
    (hcov : Covers q path) : q ∈ s.find path true subset depth := by
  have hlen : q.length = path.length := hcov.length_eq
  refine PathSet.mem_find.mpr ⟨hq, hlen.ge, hlen ▸ hdepth, fun i hi => ?_⟩
  rcases wildcard_skipped hpath i with hskip | hw
  · exact Or.inl hskip
  have hfragment : path[i]? = some (path.getD i []) := by
    rw [List.getD_eq_getElem?_getD, List.getElem?_eq_getElem hi]
    rfl
  rcases hcov.getElem? i with hsame | hstar
  · exact Or.inr (Or.inl (hsame.trans hfragment))
  · exact Or.inr (Or.inr ⟨rfl, hw, hstar⟩)

/-! ## Markers -/

theorem note_tells (d : DeviceData) {marks : List (Marker × Nat)} {flags : Nat} {k : Marker}
    {w i : Nat} (hmem : (k, w) ∈ marks) (hw : w.testBit i = true)
    (hflags : flags.testBit i = true) : k ∈ (d.note marks flags).changes := by
  by_cases hold : k ∈ d.changes
  · exact note_changes d marks flags hold
  · have hmeet : w &&& flags ≠ 0 := by
      intro hzero
      have hbit : (w &&& flags).testBit i = true := by
        rw [Nat.testBit_and, hw, hflags]
        rfl
      rw [hzero, Nat.zero_testBit] at hbit
      cases hbit
    refine List.mem_append_right _ (List.mem_map.mpr ⟨(k, w), ?_, rfl⟩)
    rw [List.mem_filter]
    exact ⟨hmem, by simp [hmeet, hold]⟩

/-- `q` has the marker `k` for the aspect `x`. -/
def Tracks (d : DeviceData) (q : Path) (k : Marker) (x : Aspect) : Prop :=
  q ∈ d.paths ∧ ∃ w, (k, w) ∈ d.marksOf q
    ∧ w.testBit 0 = true ∧ w.testBit (aspectBit x) = true

/-- Every marker registered for the aspect `x` on a pattern that covers `p` is
among the changes of `d'`. -/
def Told (d d' : DeviceData) (p : Path) (x : Aspect) : Prop :=
  ∀ q k, Covers q p → d.Tracks q k x → k ∈ d'.changes

theorem Tracks.congr {d d' : DeviceData} {q : Path} {k : Marker} {x : Aspect}
    (hpaths : ∀ p, p ∈ d.paths → p ∈ d'.paths) (htrackers : d'.trackers = d.trackers)
    (h : d.Tracks q k x) : d'.Tracks q k x := by
  obtain ⟨hq, w, hw, hbits⟩ := h
  refine ⟨hpaths q hq, w, ?_, hbits⟩
  rw [marksOf, htrackers]
  exact hw

/-! ## Clearing -/

section Clear

variable {path : Path} {timestamp descendants : Timestamp} {attributes : Option AttributeTimestamps}

theorem drop_reports {d : DeviceData} {p : Path} {x : Aspect}
    (h : (drop path timestamp descendants attributes d p).1.observe p x ≠ d.observe p x) :
    Reports (drop path timestamp descendants attributes d p).2 x := by
  unfold drop at h ⊢
  cases ht : d.timestamps.get? p with
  | none =>
      rw [ht] at h
      exact absurd rfl h
  | some t =>
      rw [ht] at h
      by_cases hremoves : t < timestamp ∨ (t < descendants ∧ path.length < p.length)
      · simp only [if_pos hremoves]
        exact Or.inl rfl
      · simp only [if_neg hremoves] at h ⊢
        cases attributes with
        | none => exact absurd rfl h
        | some wanted =>
            cases hcur : d.attributes.get? p with
            | none =>
                rw [hcur] at h
                exact absurd rfl h
            | some current =>
                rw [hcur] at h
                by_cases hout : p.length = path.length
                    ∧ ∃ a ∈ AttrName.all, outdated wanted current a = true
                · simp only [if_pos hout] at h ⊢
                  cases x with
                  | none =>
                      refine absurd ?_ h
                      simp [observe, hcur]
                  | some a =>
                      refine Or.inr ?_
                      show (AttrName.flags _).testBit a.bit = true
                      rw [AttrName.testBit_flags]
                      by_contra hno
                      refine h ?_
                      simp [observe, hcur, hno]
                · simp only [if_neg hout] at h
                  exact absurd rfl h

theorem orFlags_get? (m : InsMap Marker Nat) (k k' : Marker) (f : Nat) :
    (orFlags m k f).get? k' = if k' = k then some ((m.get? k).getD 0 ||| f) else m.get? k' :=
  InsMap.get?_set m k _ k'

/-- `m` has the bit `i` at the marker `k`. -/
def HasBit (m : InsMap Marker Nat) (k : Marker) (i : Nat) : Prop :=
  ∃ w, m.get? k = some w ∧ w.testBit i = true

theorem HasBit.orFlags {m : InsMap Marker Nat} {k : Marker} {i : Nat} (h : HasBit m k i)
    (k' : Marker) (f : Nat) : HasBit (orFlags m k' f) k i := by
  obtain ⟨w, hw, hbit⟩ := h
  rw [HasBit, orFlags_get?]
  by_cases hk : k = k'
  · subst hk
    rw [if_pos rfl, hw]
    exact ⟨_, rfl, by rw [Option.getD_some, Nat.testBit_or, hbit, Bool.true_or]⟩
  · rw [if_neg hk]
    exact ⟨w, hw, hbit⟩

theorem hasBit_orFlags_self (m : InsMap Marker Nat) (k : Marker) {f i : Nat}
    (h : f.testBit i = true) : HasBit (orFlags m k f) k i := by
  rw [HasBit, orFlags_get?, if_pos rfl]
  exact ⟨_, rfl, by rw [Nat.testBit_or, h, Bool.or_true]⟩

theorem hasBit_foldl {marks : List (Marker × Nat)} (m : InsMap Marker Nat) {k : Marker} {i : Nat}
    (h : HasBit m k i ∨ ∃ w, (k, w) ∈ marks ∧ w.testBit i = true) :
    HasBit (marks.foldl (fun m e => orFlags m e.1 e.2) m) k i := by
  induction marks generalizing m with
  | nil =>
      rcases h with h | ⟨w, hw, -⟩
      · exact h
      · cases hw
  | cons e marks ih =>
      rw [List.foldl_cons]
      apply ih
      rcases h with h | ⟨w, hw, hbit⟩
      · exact Or.inl (h.orFlags _ _)
      · rcases List.mem_cons.mp hw with rfl | hw
        · exact Or.inl (hasBit_orFlags_self m k hbit)
        · exact Or.inr ⟨w, hw, hbit⟩

theorem clearing_tells (found : List Path) (st : Clearing) {k : Marker} {i : Nat}
    (h : HasBit st.changeTrackers k i
      ∨ ∃ q ∈ found, ∃ w, (k, w) ∈ st.data.marksOf q ∧ w.testBit i = true) :
    HasBit (found.foldl (clearStep path timestamp descendants attributes) st).changeTrackers
      k i := by
  induction found generalizing st with
  | nil =>
      rcases h with h | ⟨q, hq, -⟩
      · exact h
      · cases hq
  | cons p found ih =>
      rw [List.foldl_cons]
      apply ih
      have htrackers : (clearStep path timestamp descendants attributes st p).data.trackers
          = st.data.trackers := drop_spec.2.1
      rcases h with h | ⟨q, hq, w, hw, hbit⟩
      · exact Or.inl (hasBit_foldl _ (Or.inl h))
      · rcases List.mem_cons.mp hq with rfl | hq
        · exact Or.inl (hasBit_foldl _ (Or.inr ⟨w, hw, hbit⟩))
        · refine Or.inr ⟨q, hq, w, ?_, hbit⟩
          rw [marksOf, htrackers]
          exact hw

theorem clearing_reports (found : List Path) (st : Clearing) {p : Path} {x : Aspect}
    (h : Reports st.changeFlags x
      ∨ (found.foldl (clearStep path timestamp descendants attributes) st).data.observe p x
        ≠ st.data.observe p x) :
    Reports (found.foldl (clearStep path timestamp descendants attributes) st).changeFlags x := by
  induction found generalizing st with
  | nil => exact h.resolve_right (fun hne => hne rfl)
  | cons q found ih =>
      rw [List.foldl_cons] at h ⊢
      apply ih
      rcases h with h | h
      · exact Or.inl (h.or_left _)
      · by_cases hhead : (drop path timestamp descendants attributes st.data q).1.observe p x
            = st.data.observe p x
        · refine Or.inr fun heq => h (heq.trans hhead)
        · have hpq : p = q := by
            by_contra hne
            refine hhead (observe_congr ?_ x)
            rw [drop_spec.2.2.2.2 p, if_neg hne]
          subst hpq
          exact Or.inl ((drop_reports hhead).or_right _)

end Clear

theorem clear_changes (d : DeviceData) (c : Clear) {k : Marker} (h : k ∈ d.changes) :
    k ∈ (d.clear c).changes := by
  have hsame : (d.clearing c).data.changes = d.changes := (clearing_spec (d.found c) _).2.2.1
  apply note_changes
  rw [hsame]
  exact h

/-- The flags of a clear, and of what it does, reach whoever tracks a path
that it finds. -/
theorem clear_tells {d : DeviceData} {c : Clear} {q : Path} {k : Marker} {x : Aspect}
    (hfound : q ∈ d.found c) (hq : d.Tracks q k x) (hflags : Reports (d.clearing c).changeFlags x) :
    k ∈ (d.clear c).changes := by
  obtain ⟨-, w, hw, hzero, hbit⟩ := hq
  have htells : ∀ i, w.testBit i = true → (d.clearing c).changeFlags.testBit i = true →
      k ∈ (d.clear c).changes := by
    intro i hi hflag
    obtain ⟨w', hw', hi'⟩ : HasBit (d.clearing c).changeTrackers k i :=
      clearing_tells (d.found c) _ (Or.inr ⟨q, hfound, w, hw, hi⟩)
    exact note_tells _ (InsMap.get?_eq_some.mp hw') hi' hflag
  rcases hflags with h | h
  · exact htells 0 hzero h
  · exact htells _ hbit h

/-- What a clear changes it tells, with no limit on the length of the path. -/
theorem clear_told (d : DeviceData) (c : Clear) {p : Path} {x : Aspect}
    (h : (d.clear c).observe p x ≠ d.observe p x) : Told d (d.clear c) p x := by
  intro q k hcov hq
  have hflags : Reports (d.clearing c).changeFlags x := clearing_reports (d.found c) _ (Or.inr h)
  have hfound : p ∈ d.found c := by
    by_contra hno
    refine h (observe_congr ?_ x)
    rw [(clear_spec d c).2.2.2 p, if_neg hno]
  exact clear_tells (covers_found (Or.inl rfl) hq.1 hcov hfound) hq hflags

/-- A clear that is called with flags tells them to whoever tracks its path,
unless the path is longer than it looks. -/
theorem clear_tells_path {d : DeviceData} {c : Clear} {q : Path} {k : Marker} {x : Aspect}
    (hlen : c.path.length ≤ 99) (hcov : Covers q c.path) (hq : d.Tracks q k x)
    (hflags : Reports c.changeFlags x) : k ∈ (d.clear c).changes := by
  have hdepth : ∀ t, c.path.length ≤ clearDepth c.path t := by
    intro t
    rw [clearDepth]
    split_ifs
    · exact hlen
    · exact le_rfl
  exact clear_tells (covers_found_self (Or.inl rfl) (hdepth _) hq.1 hcov) hq
    (clearing_reports (p := c.path) (d.found c) _ (Or.inl hflags))

/-! ## Setting -/

/-- An attribute that `merge` does not count as changed keeps its value. -/
theorem merge_of_not_changed {cur attributes : Attributes} {a : AttrName}
    (h : changed cur attributes a = false) :
    (merge cur attributes a).map Prod.snd = (cur a).map Prod.snd := by
  rw [changed] at h
  rw [merge]
  cases ha : attributes a with
  | none => rfl
  | some n =>
      cases hc : cur a with
      | none => rw [ha, hc] at h; cases h
      | some c =>
          rw [ha, hc] at h
          show (if n.1 ≤ c.1 then some c else some n).map Prod.snd = some c.2
          by_cases hle : n.1 ≤ c.1
          · rw [if_pos hle]
            rfl
          · have heq : n.2 = c.2 := by simpa [hle, AttrValue.compareEquality] using h
            rw [if_neg hle, ← heq]
            rfl

theorem writeAttributes_reports {d : DeviceData} {path : Path} {timestamp : Timestamp}
    {attributes : Attributes} {x : Aspect}
    (h : (d.writeAttributes path timestamp attributes).data.observe path x ≠ d.observe path x) :
    Reports (d.writeAttributes path timestamp attributes).changeFlags x := by
  cases hcur : d.currentAttributes path with
  | none =>
      refine Or.inl ?_
      simp only [writeAttributes, hcur]
      split_ifs <;> exact testBit_one
  | some cur =>
      have hold := currentAttributes_eq_some hcur
      have hflags : (d.writeAttributes path timestamp attributes).changeFlags
          = AttrName.flags (changed cur attributes) := by
        simp only [writeAttributes, hcur]
        split_ifs <;> rfl
      have hnew : (d.writeAttributes path timestamp attributes).data.attributes.get? path
          = some (merge cur attributes) := by
        simp only [writeAttributes, hcur]
        split_ifs <;> exact InsMap.get?_set_self _ _ _
      cases x with
      | none =>
          refine absurd ?_ h
          simp [observe, hnew, hold]
      | some a =>
          rw [hflags]
          refine Or.inr ((AttrName.testBit_flags _ a).trans ?_)
          by_contra hno
          refine h ?_
          rw [observe, observe, hnew, hold]
          exact merge_of_not_changed (by simpa using hno)

theorem writeNull_reports {d : DeviceData} {path : Path} {timestamp : Timestamp} {x : Aspect}
    (h : (d.writeNull path timestamp).data.observe path x ≠ d.observe path x) :
    Reports (d.writeNull path timestamp).changeFlags x := by
  rw [writeNull] at h ⊢
  split_ifs at h ⊢
  · cases hcur : d.currentAttributes path with
    | none =>
        rw [hcur] at h
        exact absurd rfl h
    | some cur => exact Or.inl testBit_one
  · exact absurd rfl h

/-- What is written at the path itself shows in the flags. -/
theorem write_reports {d : DeviceData} {path p : Path} {timestamp : Timestamp}
    {attributes : Option Attributes} {x : Aspect}
    (h : (d.write path timestamp attributes).data.observe p x ≠ d.observe p x) :
    p = path ∧ Reports (d.write path timestamp attributes).changeFlags x := by
  have hp : p = path := by
    by_contra hne
    exact h (observe_congr ((write_frame d path timestamp attributes).2.2.2 p hne).2 x)
  refine ⟨hp, ?_⟩
  subst hp
  by_cases hwild : Path.wildcard p ≠ 0
  · refine absurd (observe_congr ?_ x) h
    simp only [write, if_pos hwild, writeWildcard]
    split_ifs <;> rfl
  · simp only [write, if_neg hwild] at h ⊢
    cases attributes with
    | none => exact writeNull_reports h
    | some attributes => exact writeAttributes_reports h

theorem write_plain {d : DeviceData} {path : Path} {timestamp : Timestamp}
    {attributes : Option Attributes} (h : (d.write path timestamp attributes).changeFlags ≠ 0) :
    star ∉ path := by
  by_cases hwild : path.wildcard ≠ 0
  · refine absurd ?_ h
    simp only [write, if_pos hwild, writeWildcard]
    split_ifs <;> rfl
  · exact Path.wildcard_eq_zero.mp (not_not.mp hwild)

theorem foldl_note_tells (d : DeviceData) (found : List Path) {flags : Nat} {q : Path} {k : Marker}
    {w i : Nat} (hq : q ∈ found) (hw : (k, w) ∈ d.marksOf q) (hbit : w.testBit i = true)
    (hflags : flags.testBit i = true) :
    k ∈ (found.foldl (fun d p => d.note (d.marksOf p) flags) d).changes := by
  induction found generalizing d with
  | nil => cases hq
  | cons p found ih =>
      rcases List.mem_cons.mp hq with rfl | hq
      · exact (foldl_note _ found flags).2.2.2.2 k (note_tells d hw hbit hflags)
      · exact ih (d.note (d.marksOf p) flags) hq hw

/-- What changed at the path is left to a clear of that path, or told. -/
theorem announce_tells (d : DeviceData) {path : Path} (timestamp : Timestamp)
    (attributes : Option Attributes) {flags : Nat} (toClear : List Clear) {x : Aspect}
    (hplain : star ∉ path) (hflags : Reports flags x) :
    (∃ c ∈ (announce d path timestamp attributes flags toClear).2,
      c.path = path ∧ Reports c.changeFlags x)
    ∨ Told d (announce d path timestamp attributes flags toClear).1 path x := by
  unfold announce
  by_cases hzero : flags.testBit 0 = true
  · rw [if_pos hzero]
    exact Or.inl ⟨_, List.mem_append_right _ (List.mem_singleton_self _), rfl, hflags⟩
  · rw [if_neg hzero]
    by_cases hobject : flags.testBit AttrName.object.bit = true
    · rw [if_pos hobject]
      exact Or.inl ⟨_, List.mem_append_right _ (List.mem_singleton_self _), rfl, hflags⟩
    · rw [if_neg hobject]
      have hbit : flags.testBit (aspectBit x) = true := hflags.resolve_left hzero
      have hne : flags ≠ 0 := by
        rintro rfl
        rw [Nat.zero_testBit] at hbit
        cases hbit
      rw [if_pos hne]
      refine Or.inr fun q k hcov hq => ?_
      obtain ⟨hmem, w, hw, -, hwbit⟩ := hq
      exact foldl_note_tells d _ (covers_found_self (Or.inr hplain) le_rfl hmem hcov) hw hwbit hbit

theorem Extends.tracks {d d' : DeviceData} (h : Extends d d') {q : Path} {k : Marker} {x : Aspect}
    (hq : d.Tracks q k x) : d'.Tracks q k x :=
  hq.congr h.1 h.2.1

/-- The change of an aspect is still to be told by a clear, or has been. -/
def Covered (d : DeviceData) (after : DeviceData × List Clear) (p : Path) (x : Aspect) : Prop :=
  (∃ c ∈ after.2, c.path = p ∧ Reports c.changeFlags x) ∨ Told d after.1 p x

theorem announce_covers {d : DeviceData} {above : DeviceData × List Clear} {path p : Path}
    {timestamp : Timestamp} {attributes : Option Attributes} {flags : Nat} {x : Aspect}
    (h : Covered d above p x) :
    Covered d (announce above.1 path timestamp attributes flags above.2) p x := by
  obtain ⟨-, -, -, -, hchanges, hclears⟩ :=
    announce_frame above.1 path timestamp attributes flags above.2
  rcases h with ⟨c, hc, hcp⟩ | htold
  · exact Or.inl ⟨c, hclears c hc, hcp⟩
  · exact Or.inr fun q k hcov hq => hchanges k (htold q k hcov hq)

theorem announce_covers_written {d above : DeviceData} {path p : Path} {timestamp : Timestamp}
    {attributes attributes' : Option Attributes} {toClear : List Clear} {x : Aspect}
    (habove : Extends d above)
    (h : (d.written path timestamp attributes).data.observe p x ≠ d.observe p x) :
    Covered d (announce above path (d.written path timestamp attributes).timestamp attributes'
      (d.written path timestamp attributes).changeFlags toClear) p x := by
  obtain ⟨rfl, hflags⟩ : p = path ∧ Reports (d.written path timestamp attributes).changeFlags x :=
    write_reports h
  have hne : (d.written p timestamp attributes).changeFlags ≠ 0 := by
    intro hzero
    rw [hzero] at hflags
    rcases hflags with hbit | hbit
    · rw [Nat.zero_testBit] at hbit
      cases hbit
    · rw [Nat.zero_testBit] at hbit
      cases hbit
  rcases announce_tells above (d.written p timestamp attributes).timestamp attributes' toClear
    (write_plain hne) hflags with hclear | htold
  · exact Or.inl hclear
  · exact Or.inr fun q k hcov hq => htold q k hcov (habove.tracks hq)

/-- Whatever `set` changes it tells, or leaves to the clears it returns. -/
theorem set_covers (d : DeviceData) (path : Path) (timestamp : Timestamp)
    (attributes : Option Attributes) (toClear : List Clear) {p : Path} {x : Aspect}
    (h : (d.set path timestamp attributes toClear).1.observe p x ≠ d.observe p x) :
    Covered d (d.set path timestamp attributes toClear) p x := by
  induction d, path, timestamp, attributes using DeviceData.set.induct toClear with
  | case1 d path timestamp attributes w ih =>
      have hw : Extends d w.data := write_extends d path timestamp attributes
      by_cases hup : w.raised = true ∧ 1 < path.length
      · rw [set_raised hup] at h ⊢
        have hattrs := (announce_frame (w.data.set path.dropLast w.timestamp
          (some (parentAttributes w.timestamp)) toClear).1 path w.timestamp attributes
          w.changeFlags (w.data.set path.dropLast w.timestamp
          (some (parentAttributes w.timestamp)) toClear).2).2.2.2.1
        by_cases hhere : w.data.observe p x = d.observe p x
        · have habove : (w.data.set path.dropLast w.timestamp
              (some (parentAttributes w.timestamp)) toClear).1.observe p x
                ≠ w.data.observe p x := by
            intro heq
            refine h (Eq.trans (observe_congr ?_ x) (heq.trans hhere))
            exact congrArg (InsMap.get? · p) hattrs
          rcases announce_covers (ih hup habove) with hclear | htold
          · exact Or.inl hclear
          · exact Or.inr fun q k hcov hq => htold q k hcov (hw.tracks hq)
        · exact announce_covers_written (hw.trans (set_extends _ _ _ _ _).1) hhere
      · rw [set_done hup] at h ⊢
        have hattrs := (announce_frame w.data path w.timestamp attributes w.changeFlags
          (toClear ++ w.toClear)).2.2.2.1
        refine announce_covers_written hw fun hhere => h ?_
        exact (observe_congr (congrArg (InsMap.get? · p) hattrs) x).trans hhere

/-! ## Setting and clearing -/

/-- `device.set`, then `device.clear` on all it returned. -/
def setAndClear (d : DeviceData) (path : Path) (timestamp : Timestamp)
    (attributes : Option Attributes) : DeviceData :=
  (d.set path timestamp attributes []).2.foldl clear (d.set path timestamp attributes []).1

theorem clear_extends (d : DeviceData) (c : Clear) : Extends d (d.clear c) := by
  obtain ⟨hpaths, htrackers, -⟩ := clear_spec d c
  exact ⟨fun p hp => by rw [hpaths]; exact hp, htrackers, fun k hk => clear_changes d c hk⟩

/-- A run of clears tells what was left to them, and what they change. -/
theorem clears_told (d₀ : DeviceData) (clears : List Clear) (d : DeviceData) {p : Path} {x : Aspect}
    (hd : Extends d₀ d) (hlen : p.length ≤ 99)
    (h : Covered d₀ (d, clears) p x ∨ (clears.foldl clear d).observe p x ≠ d.observe p x) :
    Told d₀ (clears.foldl clear d) p x := by
  induction clears generalizing d with
  | nil =>
      rcases h with (⟨c, hc, -⟩ | htold) | hne
      · cases hc
      · exact htold
      · exact absurd rfl hne
  | cons c clears ih =>
      rw [List.foldl_cons] at h ⊢
      have hnext : Extends d₀ (d.clear c) := hd.trans (clear_extends d c)
      apply ih _ hnext
      rcases h with (⟨c', hc, rfl, hflags⟩ | htold) | hne
      · rcases List.mem_cons.mp hc with rfl | hc
        · exact Or.inl (Or.inr fun q k hcov hq =>
            clear_tells_path hlen hcov (hd.tracks hq) hflags)
        · exact Or.inl (Or.inl ⟨c', hc, rfl, hflags⟩)
      · exact Or.inl (Or.inr fun q k hcov hq => clear_changes d c (htold q k hcov hq))
      · by_cases hhead : (d.clear c).observe p x = d.observe p x
        · exact Or.inr fun heq => hne (heq.trans hhead)
        · exact Or.inl (Or.inr fun q k hcov hq => clear_told d c hhead q k hcov (hd.tracks hq))

/-- One call of `track`. -/
structure Registration where
  path : Path
  marker : Marker
  attributes : List AttrName

def Registration.tracks (r : Registration) : Aspect → Prop
  | none => True
  | some a => a ∈ r.attributes

def trackAll (d : DeviceData) (registrations : List Registration) : DeviceData :=
  registrations.foldl (fun d r => d.track r.path r.marker r.attributes) d

theorem testBit_foldl_flag (attributes : List AttrName) (f i : Nat)
    (h : f.testBit i = true ∨ ∃ a ∈ attributes, a.bit = i) :
    (attributes.foldl (fun f a => f ||| a.flag) f).testBit i = true := by
  induction attributes generalizing f with
  | nil =>
      rcases h with h | ⟨a, ha, -⟩
      · exact h
      · cases ha
  | cons a attributes ih =>
      rw [List.foldl_cons]
      apply ih
      rw [Nat.testBit_or]
      rcases h with h | ⟨b, hb, rfl⟩
      · exact Or.inl (by rw [h, Bool.true_or])
      · rcases List.mem_cons.mp hb with rfl | hb
        · exact Or.inl (by rw [AttrName.flag, Nat.testBit_two_pow_self, Bool.or_true])
        · exact Or.inr ⟨b, hb, rfl⟩

theorem track_marks (d : DeviceData) (r : Registration) (q : Path) (k : Marker) (w : Nat) :
    (k, w) ∈ (d.track r.path r.marker r.attributes).marksOf q
      ↔ (if q = r.path ∧ k = r.marker then
          some ((((d.trackers.get? r.path).getD .empty).get? r.marker).getD 0
            ||| trackFlags r.attributes)
        else ((d.trackers.get? q).getD .empty).get? k) = some w := by
  rw [marksOf, ← InsMap.get?_eq_some, track]
  simp only [InsMap.get?_set]
  by_cases hq : q = r.path
  · subst hq
    rw [if_pos rfl, Option.getD_some, orFlags_get?]
    by_cases hk : k = r.marker
    · rw [if_pos hk, if_pos ⟨rfl, hk⟩]
    · rw [if_neg hk, if_neg fun h => hk h.2]
  · rw [if_neg hq, if_neg fun h => hq h.1]

/-- Markers on a pattern only gain flags. -/
theorem track_keeps {d : DeviceData} {q : Path} {k : Marker} {x : Aspect} (r : Registration)
    (h : d.Tracks q k x) : (d.track r.path r.marker r.attributes).Tracks q k x := by
  obtain ⟨hq, w, hw, hzero, hbit⟩ := h
  have hget : ((d.trackers.get? q).getD .empty).get? k = some w := InsMap.get?_eq_some.mpr hw
  refine ⟨PathSet.mem_add.mpr (Or.inr hq), ?_⟩
  by_cases hsame : q = r.path ∧ k = r.marker
  · obtain ⟨rfl, rfl⟩ := hsame
    refine ⟨_, (track_marks d r _ _ _).mpr (if_pos ⟨rfl, rfl⟩), ?_⟩
    rw [hget, Option.getD_some, Nat.testBit_or, Nat.testBit_or, hzero, hbit]
    exact ⟨Bool.true_or _, Bool.true_or _⟩
  · exact ⟨w, (track_marks d r q k w).mpr ((if_neg hsame).trans hget), hzero, hbit⟩

theorem track_tracks (d : DeviceData) (r : Registration) {x : Aspect} (hx : r.tracks x) :
    (d.track r.path r.marker r.attributes).Tracks r.path r.marker x := by
  refine ⟨PathSet.mem_add.mpr (Or.inl rfl), _, (track_marks d r _ _ _).mpr (if_pos ⟨rfl, rfl⟩), ?_⟩
  rw [Nat.testBit_or, Nat.testBit_or]
  have hzero : (trackFlags r.attributes).testBit 0 = true :=
    testBit_foldl_flag _ _ _ (Or.inl testBit_one)
  refine ⟨by rw [hzero, Bool.or_true], ?_⟩
  cases x with
  | none =>
      show (_ || (trackFlags r.attributes).testBit 0) = true
      rw [hzero, Bool.or_true]
  | some a =>
      have hbit : (trackFlags r.attributes).testBit a.bit = true :=
        testBit_foldl_flag _ _ _ (Or.inr ⟨a, hx, rfl⟩)
      show (_ || (trackFlags r.attributes).testBit a.bit) = true
      rw [hbit, Bool.or_true]

theorem trackAll_tracks (d : DeviceData) (registrations : List Registration) {q : Path}
    {k : Marker} {x : Aspect}
    (h : d.Tracks q k x
      ∨ ∃ r ∈ registrations, r.path = q ∧ r.marker = k ∧ r.tracks x) :
    (d.trackAll registrations).Tracks q k x := by
  induction registrations generalizing d with
  | nil =>
      rcases h with h | ⟨r, hr, -⟩
      · exact h
      · cases hr
  | cons r registrations ih =>
      rw [trackAll, List.foldl_cons]
      apply ih
      rcases h with h | ⟨r', hr, hpath, hmarker, hx⟩
      · exact Or.inl (track_keeps r h)
      · rcases List.mem_cons.mp hr with rfl | hr
        · subst hpath hmarker
          exact Or.inl (track_tracks d r' hx)
        · exact Or.inr ⟨r', hr, hpath, hmarker, hx⟩

/-- What a step from `d` to `d'` changes at the path `p` is told to every
marker registered for it on a pattern that covers the path. -/
def AllTold (registrations : List Registration) (d d' : DeviceData) (p : Path) : Prop :=
  ∀ x, d'.observe p x ≠ d.observe p x →
    ∀ r ∈ registrations, Covers r.path p → r.tracks x → r.marker ∈ d'.changes

/-- No marker misses a change of a path of at most 99 fragments, and a clear
on its own misses none at all. -/
theorem changes_complete (d : DeviceData) (registrations : List Registration) :
    (∀ path timestamp attributes p, p.length ≤ 99 →
      AllTold registrations (d.trackAll registrations)
        ((d.trackAll registrations).setAndClear path timestamp attributes) p)
    ∧ ∀ c p, AllTold registrations (d.trackAll registrations)
        ((d.trackAll registrations).clear c) p := by
  have htracks : ∀ x, ∀ r ∈ registrations, r.tracks x →
      (d.trackAll registrations).Tracks r.path r.marker x := fun x r hr hx =>
    trackAll_tracks d registrations (Or.inr ⟨r, hr, rfl, rfl, hx⟩)
  constructor
  · intro path timestamp attributes p hlen x hne r hr hcov hx
    have htold : Told (d.trackAll registrations)
        ((d.trackAll registrations).setAndClear path timestamp attributes) p x := by
      refine clears_told _ _ _ (set_extends _ _ _ _ _).1 hlen ?_
      by_cases hset : ((d.trackAll registrations).set path timestamp attributes []).1.observe p x
          = (d.trackAll registrations).observe p x
      · exact Or.inr fun heq => hne (heq.trans hset)
      · exact Or.inl (set_covers _ _ _ _ _ hset)
    exact htold r.path r.marker hcov (htracks x r hr hx)
  · intro c p x hne r hr hcov hx
    exact clear_told _ c hne r.path r.marker hcov (htracks x r hr hx)

/-- A marker on `*` hears of the new path `a`. -/
theorem changes_complete_wildcard :
    js "m" ∈ ((initDeviceData.trackAll [⟨[star], js "m", []⟩]).setAndClear [js "a"] 1
      (some (Function.update (fun _ => none) .value (some (1, .array []))))).changes :=
  (changes_complete initDeviceData [⟨[star], js "m", []⟩]).1 _ _ _ [js "a"] (by decide) none
    (by decide +kernel) _ (List.mem_singleton_self _)
    (.cons (Or.inr rfl) .nil) trivial

/-- The deep path exists since time 5. -/
def deepData : DeviceData where
  paths := PathSet.empty.add deepPath
  timestamps := InsMap.empty.set deepPath 5
  attributes := InsMap.empty.set deepPath fun _ => none
  trackers := .empty
  changes := []

/-- No marker hears that a path of a hundred fragments is gone. -/
theorem deep_change_untold :
    let d := deepData.trackAll [⟨deepPath, js "m", []⟩]
    (∀ p, (d.attributes.get? p).isSome = (d.timestamps.get? p).isSome)
      ∧ (∀ p t, d.timestamps.get? p = some t → 0 < t)
      ∧ (d.setAndClear deepPath 6 none).observe deepPath none ≠ d.observe deepPath none
      ∧ js "m" ∉ (d.setAndClear deepPath 6 none).changes := by
  extract_lets d
  have htimes : ∀ p, d.timestamps.get? p = if p = deepPath then some 5 else none := fun p =>
    InsMap.get?_set InsMap.empty deepPath (5 : Timestamp) p
  have hattrs : ∀ p, d.attributes.get? p = if p = deepPath then some fun _ => none else none :=
    fun p => InsMap.get?_set InsMap.empty deepPath (fun _ => none : Attributes) p
  refine ⟨fun p => ?_, fun p t h => ?_, ?_, ?_⟩
  · rw [htimes, hattrs]
    by_cases h : p = deepPath
    · rw [if_pos h, if_pos h]
      rfl
    · rw [if_neg h, if_neg h]
      rfl
  · rw [htimes] at h
    split_ifs at h
    cases h
    norm_num
  · decide +kernel
  · decide +kernel

end DeviceData

end GenieAcs
