import GenieAcs.PathParse
import GenieAcs.Lib.Transition

/-!
# The path caches

Parsed paths are kept by their texts in two generations, and so are the paths
that are made of other paths. A text that is in neither generation is parsed;
what a cached text stands for is what it is the text of, or what it is parsed
to.
-/

namespace GenieAcs

/-! ## Texts of parts -/

theorem pathText_append {p q : Segments} (hp : p ≠ []) (hq : q ≠ []) :
    pathText (p ++ q) = pathText p ++ js "." ++ pathText q := by
  cases q with
  | nil => exact absurd rfl hq
  | cons t q =>
      cases p with
      | nil => exact absurd rfl hp
      | cons s p =>
          have htail : pathTail (p ++ t :: q) = pathTail p ++ js "." ++ pathText (t :: q) := by
            induction p with
            | nil => simp [pathTail, pathText]
            | cons s' p ih =>
                have ih := ih (List.cons_ne_nil _ _)
                rw [List.cons_append, pathTail, ih, pathTail]
                simp
          rw [List.cons_append, pathText, htail]
          simp [pathText]

/-- `_stringIndex[i]`: where segment `i` ends. -/
def stringIndex (p : Segments) (i : Nat) : Nat :=
  ((p.take (i + 1)).map fun s => s.toText.length).sum + i

theorem pathText_length {p : Segments} (hp : p ≠ []) :
    (pathText p).length + 1 = (p.map fun s => s.toText.length).sum + p.length := by
  cases p with
  | nil => exact absurd rfl hp
  | cons s p =>
      have htail : (pathTail p).length = (p.map fun s => s.toText.length).sum + p.length := by
        induction p with
        | nil => rfl
        | cons s' p ih =>
            have ih := ih (List.cons_ne_nil _ _)
            rw [pathTail, List.length_append, List.length_append, ih]
            simp only [List.map_cons, List.sum_cons, List.length_cons]
            have hdot : (js ".").length = 1 := rfl
            omega
      rw [pathText, List.length_append, htail]
      simp only [List.map_cons, List.sum_cons, List.length_cons]
      omega

theorem stringIndex_eq {p : Segments} {i : Nat} (hi : i < p.length) :
    stringIndex p i = (pathText (p.take (i + 1))).length := by
  have hne : p.take (i + 1) ≠ [] := by
    intro h
    have hlen := congrArg List.length h
    rw [List.length_take, List.length_nil] at hlen
    omega
  have hlen := pathText_length hne
  rw [List.length_take] at hlen
  rw [stringIndex]
  omega

/-! ## Caches -/

structure PathCache where
  cache1 : InsMap JsString Segments
  cache2 : InsMap JsString Segments

namespace PathCache

def empty : PathCache := ⟨.empty, .empty⟩

/-- `cache1.set`. -/
def put (c : PathCache) (str : JsString) (path : Segments) : PathCache :=
  { c with cache1 := c.cache1.set str path }

/-- What the interval does. -/
def rotate (c : PathCache) : PathCache := ⟨.empty, c.cache1⟩

/-- `none` is the error "Invalid parameter path". -/
def parse (c : PathCache) (str : JsString) : Option Segments × PathCache :=
  match c.cache1.get? str with
  | some path => (some path, c)
  | none =>
      match c.cache2.get? str with
      | some path => (some path, c.put str path)
      | none =>
          match parsePath str with
          | none => (none, c)
          | some path =>
              let c := if pathText path ≠ str then c.put (pathText path) path else c
              (some path, c.put str path)

/-- The path that is cached for a text, or else these segments. -/
def getOr (c : PathCache) (str : JsString) (segments : Segments) : Segments × PathCache :=
  match c.cache1.get? str with
  | some path => (path, c)
  | none =>
      match c.cache2.get? str with
      | some path => (path, c.put str path)
      | none => (segments, c.put str segments)

/-- An index of `slice`, from the end if it is negative. -/
def sliceIndex (n : Nat) (i : Int) : Nat := if i < 0 then (n + i).toNat else i.toNat

/-- The text that `slice` cuts out. Where no segment ends before `start`, the
first index is `NaN`, and the text is cut from its start. -/
def sliceText (p : Segments) (start stop : Nat) : JsString :=
  if stop ≤ start then []
  else
    let i1 := if 0 < start ∧ start ≤ p.length then stringIndex p (start - 1) + 1 else 0
    let i2 := if stop ≤ p.length then stringIndex p (stop - 1) else (pathText p).length
    ((pathText p).take i2).drop i1

def slice (c : PathCache) (p : Segments) (start stop : Int) : Segments × PathCache :=
  let start := sliceIndex p.length start
  let stop := sliceIndex p.length stop
  c.getOr (sliceText p start stop) ((p.drop start).take (stop - start))

def concat (c : PathCache) (p q : Segments) : Segments × PathCache :=
  if pathText q = [] then (p, c)
  else if pathText p = [] then (q, c)
  else c.getOr (pathText p ++ js "." ++ pathText q) (p ++ q)

def stripped : Segment → Segment
  | .name s => .name s
  | .aliases _ => .name star

def stripAlias (c : PathCache) (p : Segments) : Segments × PathCache :=
  if p.all fun s => match s with | .name _ => true | .aliases _ => false then (p, c)
  else c.getOr (pathText (p.map stripped)) (p.map stripped)

/-! ## What is cached -/

/-- Every cached path is one that parsing can produce, kept under its text or
under a text that is parsed to it. -/
def Faithful (c : PathCache) : Prop := ∀ str p,
  c.cache1.get? str = some p ∨ c.cache2.get? str = some p →
    PathSound p ∧ (pathText p = str ∨ parsePath str = some p)

theorem faithful_empty : empty.Faithful := by
  rintro str p (h | h)
  · cases h
  · cases h

theorem Faithful.put {c : PathCache} (h : c.Faithful) {str : JsString} {p : Segments}
    (hp : PathSound p) (hstr : pathText p = str ∨ parsePath str = some p) :
    (c.put str p).Faithful := by
  rintro str' p' (h' | h')
  · replace h' : (c.cache1.set str p).get? str' = some p' := h'
    rw [InsMap.get?_set] at h'
    split_ifs at h' with heq
    · obtain rfl := Option.some.inj h'
      subst heq
      exact ⟨hp, hstr⟩
    · exact h str' p' (Or.inl h')
  · exact h str' p' (Or.inr h')

theorem Faithful.rotate {c : PathCache} (h : c.Faithful) : c.rotate.Faithful := by
  rintro str p (h' | h')
  · cases h'
  · exact h str p (Or.inl h')

theorem Faithful.parse {c c' : PathCache} (h : c.Faithful) {str : JsString} {p : Segments}
    (hp : c.parse str = (some p, c')) : c'.Faithful ∧ PathSound p := by
  unfold PathCache.parse at hp
  cases h1 : c.cache1.get? str with
  | some path =>
      simp only [h1] at hp
      obtain ⟨rfl, rfl⟩ := Prod.mk.inj hp |>.imp_left Option.some.inj
      exact ⟨h, (h str path (Or.inl h1)).1⟩
  | none =>
      simp only [h1] at hp
      cases h2 : c.cache2.get? str with
      | some path =>
          simp only [h2] at hp
          obtain ⟨rfl, rfl⟩ := Prod.mk.inj hp |>.imp_left Option.some.inj
          obtain ⟨hsound, hstr⟩ := h str path (Or.inr h2)
          exact ⟨h.put hsound hstr, hsound⟩
      | none =>
          simp only [h2] at hp
          cases h3 : parsePath str with
          | none =>
              rw [h3] at hp
              cases (Prod.mk.inj hp).1
          | some path =>
              simp only [h3] at hp
              obtain ⟨rfl, rfl⟩ := Prod.mk.inj hp |>.imp_left Option.some.inj
              have hsound := parsePath_sound h3
              refine ⟨Faithful.put ?_ hsound (Or.inr h3), hsound⟩
              split_ifs
              · exact h.put hsound (Or.inl rfl)
              · exact h

theorem Faithful.getOr {c : PathCache} (h : c.Faithful) {str : JsString} {p : Segments}
    (hp : PathSound p) (hstr : pathText p = str) :
    (c.getOr str p).2.Faithful ∧ PathSound (c.getOr str p).1 := by
  unfold PathCache.getOr
  cases h1 : c.cache1.get? str with
  | some path => exact ⟨h, (h str path (Or.inl h1)).1⟩
  | none =>
      cases h2 : c.cache2.get? str with
      | some path =>
          obtain ⟨hsound, hstr'⟩ := h str path (Or.inr h2)
          exact ⟨h.put hsound hstr', hsound⟩
      | none => exact ⟨h.put hp (Or.inl hstr), hp⟩

theorem pathSound_iff {p : Segments} : PathSound p ↔ ∀ s ∈ p, s.Sound := by
  induction p with
  | nil => simp [PathSound]
  | cons s p ih => rw [PathSound, ih, List.forall_mem_cons]

/-- The text that `slice` cuts out is that of the segments it takes. -/
theorem sliceText_eq {p : Segments} {start : Nat} (stop : Nat) (hstart : start ≤ p.length) :
    pathText ((p.drop start).take (stop - start)) = sliceText p start stop := by
  rw [sliceText]
  by_cases hle : stop ≤ start
  · rw [if_pos hle, Nat.sub_eq_zero_of_le hle, List.take_zero]
    rfl
  · rw [if_neg hle]
    have hend : (pathText p).take (if stop ≤ p.length then stringIndex p (stop - 1)
        else (pathText p).length) = pathText (p.take stop) := by
      split_ifs with hstop
      · rw [stringIndex_eq (by omega), Nat.sub_add_cancel (by omega)]
        by_cases hwhole : stop = p.length
        · rw [hwhole, List.take_length, List.take_length]
        · have hsplit : pathText p = pathText (p.take stop) ++ js "." ++ pathText (p.drop stop) := by
            rw [← pathText_append, List.take_append_drop]
            · intro h
              have hlen := congrArg List.length h
              rw [List.length_take, List.length_nil] at hlen
              omega
            · intro h
              have hlen := congrArg List.length h
              rw [List.length_drop, List.length_nil] at hlen
              omega
          rw [hsplit, List.append_assoc, List.take_left]
      · rw [List.take_length, List.take_of_length_le (by omega)]
    simp only [hend]
    by_cases hzero : start = 0
    · subst hzero
      rfl
    · rw [if_pos ⟨by omega, hstart⟩]
      by_cases hlast : start = p.length
      · rw [hlast, List.drop_length, List.take_nil, stringIndex_eq (by omega),
          Nat.sub_add_cancel (by omega), List.take_length, List.take_of_length_le (by omega),
          List.drop_eq_nil_of_le (Nat.le_succ _)]
        rfl
      · have htake : (p.take stop).take start = p.take start := by
          rw [List.take_take, Nat.min_eq_left (by omega)]
        have hdrop : (p.take stop).drop start = (p.drop start).take (stop - start) :=
          List.drop_take
        have hsplit : pathText (p.take stop)
            = pathText (p.take start) ++ js "." ++ pathText ((p.drop start).take (stop - start)) := by
          rw [← htake, ← hdrop, ← pathText_append, List.take_append_drop]
          · intro h
            have hlen := congrArg List.length h
            rw [List.length_take, List.length_take, List.length_nil] at hlen
            omega
          · intro h
            have hlen := congrArg List.length h
            rw [List.length_drop, List.length_take, List.length_nil] at hlen
            omega
        have hlen : stringIndex p (start - 1) + 1 = (pathText (p.take start) ++ js ".").length := by
          rw [stringIndex_eq (by omega), Nat.sub_add_cancel (by omega), List.length_append]
          rfl
        rw [hsplit, hlen, List.drop_left]

/-! ## Runs -/

/-- What a process has: the caches, and the paths it got from them. -/
structure Process where
  caches : PathCache
  paths : List Segments

inductive Step : Process → Process → Prop
  | parse {c paths str path c'} (h : PathCache.parse c str = (some path, c')) :
      Step ⟨c, paths⟩ ⟨c', path :: paths⟩
  | slice {c paths path} (start stop : Int) (h : path ∈ paths)
      (hstart : sliceIndex path.length start ≤ path.length) :
      Step ⟨c, paths⟩ ⟨(c.slice path start stop).2, (c.slice path start stop).1 :: paths⟩
  | concat {c paths path path2} (h : path ∈ paths) (h2 : path2 ∈ paths) :
      Step ⟨c, paths⟩ ⟨(c.concat path path2).2, (c.concat path path2).1 :: paths⟩
  | stripAlias {c paths path} (h : path ∈ paths) :
      Step ⟨c, paths⟩ ⟨(c.stripAlias path).2, (c.stripAlias path).1 :: paths⟩
  | rotate {c paths} : Step ⟨c, paths⟩ ⟨c.rotate, paths⟩

def Run : Process → Prop := Reachable (· = ⟨empty, []⟩) Step

def Process.Sound (s : Process) : Prop := s.caches.Faithful ∧ ∀ p ∈ s.paths, PathSound p

theorem Process.Sound.cons {s : Process} (h : s.Sound) {c : PathCache} {p : Segments}
    (hp : c.Faithful ∧ PathSound p) : Process.Sound ⟨c, p :: s.paths⟩ :=
  ⟨hp.1, List.forall_mem_cons.mpr ⟨hp.2, h.2⟩⟩

theorem stripped_sound {s : Segment} (h : s.Sound) : (stripped s).Sound := by
  cases s with
  | name s => exact h
  | aliases pairs => exact Or.inl rfl

theorem step_sound {s s' : Process} (h : s.Sound) (hstep : Step s s') : s'.Sound := by
  cases hstep with
  | parse hparse => exact h.cons (h.1.parse hparse)
  | slice start stop hp hstart =>
      refine h.cons (h.1.getOr (pathSound_iff.mpr fun s hs => ?_) (sliceText_eq _ hstart))
      exact pathSound_iff.mp (h.2 _ hp) s (List.mem_of_mem_drop (List.mem_of_mem_take hs))
  | @concat c paths path path2 hp hq =>
      rw [PathCache.concat]
      split_ifs with hq' hp'
      · exact h.cons ⟨h.1, h.2 _ hp⟩
      · exact h.cons ⟨h.1, h.2 _ hq⟩
      · refine h.cons (h.1.getOr (pathSound_append (h.2 _ hp) (h.2 _ hq)) (pathText_append ?_ ?_))
        · rintro rfl
          exact hp' rfl
        · rintro rfl
          exact hq' rfl
  | stripAlias hp =>
      rw [PathCache.stripAlias]
      split_ifs
      · exact h.cons ⟨h.1, h.2 _ hp⟩
      · refine h.cons (h.1.getOr (pathSound_iff.mpr fun s hs => ?_) rfl)
        obtain ⟨t, ht, rfl⟩ := List.mem_map.mp hs
        exact stripped_sound (pathSound_iff.mp (h.2 _ hp) t ht)
  | rotate => exact ⟨h.1.rotate, h.2⟩

theorem run_sound {s : Process} (h : Run s) : s.Sound :=
  h.invariant (fun _ hs => hs ▸ ⟨faithful_empty, fun _ h => nomatch h⟩)
    (fun _ _ hs hstep => step_sound hs hstep)

/-- With faithful caches a readable path is read back from its text. -/
theorem Faithful.parse_text {c : PathCache} (h : c.Faithful) {p : Segments} (hp : PathSound p)
    (hv : ∀ v ∈ pathValues p, Readable v) : (c.parse (pathText p)).1 = some p := by
  have hread : parsePath (pathText p) = some p := (parsePath_text hp).trans (if_pos hv)
  -- a cached path with the same text is read back from it too
  have hcached : ∀ q, c.cache1.get? (pathText p) = some q ∨ c.cache2.get? (pathText p) = some q →
      q = p := by
    intro q hq
    obtain ⟨hsound, heq | hparse⟩ := h _ _ hq
    · rw [← heq, parsePath_text hsound] at hread
      split_ifs at hread
      exact Option.some.inj hread
    · exact Option.some.inj (hparse.symm.trans hread)
  unfold PathCache.parse
  cases h1 : c.cache1.get? (pathText p) with
  | some q => exact congrArg some (hcached q (Or.inl h1))
  | none =>
      cases h2 : c.cache2.get? (pathText p) with
      | some q => exact congrArg some (hcached q (Or.inr h2))
      | none => simp only [hread]

/-- A path that any process has parsed is read back from its text by every
process just when none of its values ends in a backslash. -/
theorem parse_text_iff {s : Process} (hs : Run s) {str : JsString} {p : Segments} {c : PathCache}
    (hp : s.caches.parse str = (some p, c)) :
    (∀ s', Run s' → (s'.caches.parse (pathText p)).1 = some p)
      ↔ ∀ v ∈ pathValues p, v.getLast? ≠ some '\\'.toNat := by
  have hsound := ((run_sound hs).1.parse hp).2
  constructor
  · intro h
    by_contra hv
    have hempty := h ⟨empty, []⟩ (.init rfl)
    have hnone : parsePath (pathText p) = none := (parsePath_text hsound).trans (if_neg hv)
    have hparse : (empty.parse (pathText p)).1 = none := by
      unfold PathCache.parse
      rw [hnone]
      rfl
    rw [hparse] at hempty
    cases hempty
  · intro hv s' hs'
    exact (run_sound hs').1.parse_text hsound hv

/-- A name and an alias. -/
theorem parse_text_alias : (∀ s', Run s' → (s'.caches.parse
      (pathText [.name (js "a"), .aliases [([.name (js "b")], js "c")]])).1
        = some [.name (js "a"), .aliases [([.name (js "b")], js "c")]])
    ↔ ∀ v ∈ pathValues [.name (js "a"), .aliases [([.name (js "b")], js "c")]],
      v.getLast? ≠ some '\\'.toNat :=
  @parse_text_iff _ (.init rfl) (js "a.[b:c]") _ _ rfl

/-- The value of `[a:b\\]` is printed so that the parser does not find its end. -/
theorem parse_text_backslash : ¬ ∀ (s : Process) (str : JsString) (p : Segments) (c : PathCache),
    Run s → s.caches.parse str = (some p, c) →
    ∀ s', Run s' → (s'.caches.parse (pathText p)).1 = some p := by
  intro h
  have hread := h ⟨empty, []⟩ (js "[a:b\\]") _ _ (.init rfl) rfl ⟨empty, []⟩ (.init rfl)
  have hnone : (empty.parse (pathText [.aliases [([.name (js "a")], js "b\\")]])).1.isNone = true := by
    decide +kernel
  rw [Option.isNone_iff_eq_none] at hnone
  exact absurd (hnone.symm.trans hread) (by simp)

end PathCache

end GenieAcs
