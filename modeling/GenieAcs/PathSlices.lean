import GenieAcs.PathCache
import Mathlib.Data.List.Infix

/-!
# Parts of paths

The caches keep paths under their texts, so they can only give the right path
if a text belongs to one path. It does, also where the parser does not read it
back. What a cache gives for the text of a part is then that part, unless some
path was cached under a text that is not its own. That happens in `slice` where
it is called with a start past the end of a path.
-/

namespace GenieAcs

/-! ## A text belongs to one path -/

theorem fragment_inj {s t rest rest' : JsString} (hs : Fragment s) (ht : Fragment t)
    (hrest : legalChar (rest.headD 0) = false) (hrest' : legalChar (rest'.headD 0) = false)
    (h : s ++ rest = t ++ rest') : s = t ∧ rest = rest' := by
  have hspan : ∀ {u r : JsString}, (∀ c ∈ u, legalChar c = true) → legalChar (r.headD 0) = false →
      (u ++ r).takeWhile legalChar = u := by
    intro u r hu hr
    rw [List.takeWhile_append_of_pos hu]
    cases r with
    | nil => rw [List.takeWhile_nil, List.append_nil]
    | cons c r =>
        have hc : ¬ legalChar c = true := ne_true_of_eq_false hr
        rw [List.takeWhile_cons_of_neg hc, List.append_nil]
  -- an asterisk is no legal character
  have hstar : ∀ {u r r' : JsString}, star ++ r = u ++ r' → u ≠ [] →
      ¬ ∀ c ∈ u, legalChar c = true := by
    rintro (_ | ⟨c, u⟩) r r' heq hne hu
    · exact hne rfl
    · have hc := hu c (List.mem_cons_self ..)
      rw [← (List.cons.inj heq).1] at hc
      exact absurd hc (by decide)
  have hst : s = t := by
    rcases hs with rfl | ⟨hne, hs⟩ <;> rcases ht with rfl | ⟨hne', ht⟩
    · rfl
    · exact absurd ht (hstar h hne')
    · exact absurd hs (hstar h.symm hne)
    · rw [← hspan hs hrest, h, hspan ht hrest']
  subst hst
  exact ⟨rfl, List.append_cancel_left h⟩

/-- The first character of a segment tells what kind it is. -/
theorem fragment_ne_bracket {s rest rest' : JsString} (hs : Fragment s) :
    s ++ rest ≠ '['.toNat :: rest' := by
  rintro h
  rcases hs with rfl | ⟨hne, hs⟩
  · exact absurd (List.cons.inj h).1 (by decide)
  · cases s with
    | nil => exact hne rfl
    | cons c s =>
        have hc := hs c (List.mem_cons_self ..)
        rw [(List.cons.inj h).1] at hc
        exact absurd hc (by decide)

theorem aliasText_cons_ne {p : List Segment × JsString} {pairs : List (List Segment × JsString)}
    (hp : PairSound p) {rest rest' : JsString} :
    ']'.toNat :: rest ≠ aliasText (p :: pairs) ++ ']'.toNat :: rest' := by
  obtain ⟨path, v⟩ := p
  obtain ⟨c, cs, hstart, -, hclose⟩ := pathText_start hp.1 hp.2
  rw [aliasText, pairText, hstart]
  intro h
  exact hclose (List.cons.inj h).1.symm

mutual

theorem segment_inj (s s' : Segment) (hs : s.Sound) (hs' : s'.Sound) {rest rest' : JsString}
    (hrest : Follows rest) (hrest' : Follows rest')
    (h : s.toText ++ rest = s'.toText ++ rest') : s = s' ∧ rest = rest' := by
  match s, s' with
  | .name s, .name s' =>
      obtain ⟨rfl, hr⟩ := fragment_inj hs hs' hrest.illegal hrest'.illegal h
      exact ⟨rfl, hr⟩
  | .name s, .aliases pairs' =>
      rw [aliases_text] at h
      exact absurd h (fragment_ne_bracket hs)
  | .aliases pairs, .name s' =>
      rw [aliases_text] at h
      exact absurd h.symm (fragment_ne_bracket hs')
  | .aliases pairs, .aliases pairs' =>
      rw [aliases_text, aliases_text] at h
      obtain ⟨rfl, hr⟩ := alias_inj pairs pairs' hs.1 hs'.1 (List.cons.inj h).2
      exact ⟨rfl, hr⟩

theorem path_inj (p p' : List Segment) (hne : p ≠ []) (hne' : p' ≠ []) (hp : PathSound p)
    (hp' : PathSound p') {rest rest' : JsString}
    (hrest : rest = [] ∨ ∃ r, rest = ':'.toNat :: '"'.toNat :: r)
    (hrest' : rest' = [] ∨ ∃ r, rest' = ':'.toNat :: '"'.toNat :: r)
    (h : pathText p ++ rest = pathText p' ++ rest') : p = p' ∧ rest = rest' := by
  have hdot : ∀ {r : JsString}, (r = [] ∨ ∃ t, r = ':'.toNat :: '"'.toNat :: t) →
      r.headD 0 ≠ '.'.toNat := by
    rintro r (rfl | ⟨t, rfl⟩)
    · decide
    · exact Nat.ne_of_beq_eq_false rfl
  match p, p' with
  | [], _ => exact absurd rfl hne
  | _, [] => exact absurd rfl hne'
  | s :: p, s' :: p' =>
      have hfollows : ∀ (q : List Segment) {r : JsString},
          (r = [] ∨ ∃ t, r = ':'.toNat :: '"'.toNat :: t) → Follows (pathTail q ++ r) := by
        rintro (_ | ⟨t, q⟩) r hr
        · exact hr.imp_right Or.inr
        · exact Or.inr (Or.inl (pathTail_head t q r).1)
      rw [pathText, pathText, List.append_assoc, List.append_assoc] at h
      obtain ⟨rfl, htail⟩ :=
        segment_inj s s' hp.1 hp'.1 (hfollows p hrest) (hfollows p' hrest') h
      match p, p' with
      | [], [] => exact ⟨rfl, htail⟩
      | [], t' :: p' =>
          rw [pathTail, List.nil_append] at htail
          exact absurd (htail ▸ (pathTail_head t' p' rest').1) (hdot hrest)
      | t :: p, [] =>
          have hnil : pathTail [] ++ rest' = rest' := rfl
          rw [hnil] at htail
          exact absurd (htail ▸ (pathTail_head t p rest).1) (hdot hrest')
      | t :: p, t' :: p' =>
          have htext := congrArg List.tail htail
          rw [(pathTail_head t p rest).2, (pathTail_head t' p' rest').2] at htext
          obtain ⟨hpath, hr⟩ := path_inj (t :: p) (t' :: p') (List.cons_ne_nil _ _)
            (List.cons_ne_nil _ _) hp.2 hp'.2 hrest hrest' htext
          exact ⟨congrArg (s :: ·) hpath, hr⟩

theorem alias_inj (pairs pairs' : List (List Segment × JsString)) (hp : AliasSound pairs)
    (hp' : AliasSound pairs') {rest rest' : JsString}
    (h : aliasText pairs ++ ']'.toNat :: rest = aliasText pairs' ++ ']'.toNat :: rest') :
    pairs = pairs' ∧ rest = rest' := by
  match pairs, pairs' with
  | [], [] => exact ⟨rfl, (List.cons.inj h).2⟩
  | [], p' :: pairs' => exact absurd h (aliasText_cons_ne hp'.1)
  | p :: pairs, [] => exact absurd h.symm (aliasText_cons_ne hp.1)
  | (path, v) :: pairs, (path', v') :: pairs' =>
      obtain ⟨⟨hne, hpath⟩, hpairs⟩ := hp
      obtain ⟨⟨hne', hpath'⟩, hpairs'⟩ := hp'
      have htext : ∀ (path : List Segment) (v t : JsString),
          pairText (path, v) ++ t = pathText path ++ ':'.toNat :: (jsonString v ++ t) := by
        intro path v t
        rw [pairText]
        simp [js]
      rw [aliasText, aliasText, List.append_assoc, List.append_assoc, htext, htext] at h
      obtain ⟨rfl, hrest⟩ := path_inj path path' hne hne' hpath hpath'
        (Or.inr (jsonString_start v _)) (Or.inr (jsonString_start v' _)) h
      obtain ⟨rfl, htail⟩ := jsonString_append_inj (List.cons.inj hrest).2
      match pairs, pairs' with
      | [], [] => exact ⟨rfl, (List.cons.inj htail).2⟩
      | [], p' :: pairs' =>
          have hhead := (aliasTail_head p' pairs' (']'.toNat :: rest')).1
          rw [← htail] at hhead
          exact absurd hhead (Nat.ne_of_beq_eq_false rfl)
      | p :: pairs, [] =>
          have hhead := (aliasTail_head p pairs (']'.toNat :: rest)).1
          rw [htail] at hhead
          exact absurd hhead (Nat.ne_of_beq_eq_false rfl)
      | p :: pairs, p' :: pairs' =>
          have htext := congrArg List.tail htail
          rw [(aliasTail_head p pairs _).2, (aliasTail_head p' pairs' _).2] at htext
          obtain ⟨heq, hr⟩ := alias_inj (p :: pairs) (p' :: pairs') hpairs hpairs' htext
          exact ⟨congrArg ((path, v) :: ·) heq, hr⟩

end

/-- Paths with the same text are the same path. -/
theorem pathText_inj {p q : Segments} (hp : PathSound p) (hq : PathSound q)
    (h : pathText p = pathText q) : p = q := by
  have hnil : ∀ {p : Segments}, PathSound p → pathText p = [] → p = [] := by
    intro p hp hempty
    by_contra hne
    obtain ⟨c, cs, hstart, -⟩ := pathText_start hne hp
    rw [hempty] at hstart
    cases hstart
  by_cases hne : p = []
  · rw [hne, hnil hq (by rw [← h, hne]; rfl)]
  · by_cases hne' : q = []
    · exact hnil hp (h.trans (by rw [hne']; rfl)) |>.trans hne'.symm
    · exact (@path_inj p q hne hne' hp hq [] [] (Or.inl rfl) (Or.inl rfl)
        (congrArg (· ++ []) h)).1

namespace PathCache

/-! ## What a cache gives -/

/-- With faithful caches the path under the text of these segments is theirs. -/
theorem Faithful.getOr_eq {c : PathCache} (h : c.Faithful) {p : Segments} (hp : PathSound p) :
    (c.getOr (pathText p) p).1 = p := by
  have hcached : ∀ q, c.cache1.get? (pathText p) = some q ∨ c.cache2.get? (pathText p) = some q →
      q = p := by
    intro q hq
    obtain ⟨hsound, htext | hparse⟩ := h _ _ hq
    · exact pathText_inj hsound hp htext
    · rw [parsePath_text hp] at hparse
      split_ifs at hparse
      exact (Option.some.inj hparse).symm
  unfold PathCache.getOr
  cases h1 : c.cache1.get? (pathText p) with
  | some q => exact hcached q (Or.inl h1)
  | none =>
      cases h2 : c.cache2.get? (pathText p) with
      | some q => exact hcached q (Or.inr h2)
      | none => rfl

/-- A text that some path is cached under. -/
def Has (c : PathCache) (str : JsString) : Prop :=
  c.cache1.get? str ≠ none ∨ c.cache2.get? str ≠ none

theorem Has.getOr_congr {c : PathCache} {str : JsString} (h : c.Has str) (p q : Segments) :
    c.getOr str p = c.getOr str q := by
  unfold PathCache.getOr
  cases h1 : c.cache1.get? str with
  | some path => rfl
  | none =>
      cases h2 : c.cache2.get? str with
      | some path => rfl
      | none => exact absurd h (by simp [Has, h1, h2])

theorem getOr_of_not_has {c : PathCache} {str : JsString} (h : ¬ c.Has str) (p : Segments) :
    c.getOr str p = (p, c.put str p) := by
  obtain ⟨h1, h2⟩ := not_or.mp h
  rw [not_ne_iff] at h1 h2
  unfold PathCache.getOr
  rw [h1]
  simp only [h2]

theorem slice_natCast (c : PathCache) (p : Segments) (start stop : ℕ) : c.slice p start stop
    = c.getOr (sliceText p start stop) ((p.drop start).take (stop - start)) := rfl

/-- Past the end of a path nothing is taken, but the whole text is cut out. -/
theorem slice_past {c : PathCache} {p : Segments} {start stop : Int}
    (hstart : p.length < sliceIndex p.length start)
    (hlt : sliceIndex p.length start < sliceIndex p.length stop) :
    c.slice p start stop = c.getOr (pathText p) [] := by
  have htext : sliceText p (sliceIndex p.length start) (sliceIndex p.length stop) = pathText p := by
    rw [sliceText, if_neg (not_le.mpr hlt)]
    simp only
    rw [if_neg fun h => absurd h.2 (not_le.mpr hstart), if_neg (not_le.mpr (hstart.trans hlt)),
      List.drop_zero, List.take_length]
  rw [slice, htext, List.drop_eq_nil_of_le hstart.le, List.take_nil]

/-- What `slice` takes is what the cache gives for the text of a path, unless
nothing is cached under that of a path that it starts past the end of. -/
theorem slice_getOr {c : PathCache} {p : Segments} (hp : PathSound p) {start stop : Int}
    (h : sliceIndex p.length start ≤ p.length
      ∨ sliceIndex p.length stop ≤ sliceIndex p.length start ∨ p = [] ∨ c.Has (pathText p)) :
    ∃ w, PathSound w ∧ c.slice p start stop = c.getOr (pathText w) w := by
  by_cases hstart : sliceIndex p.length start ≤ p.length
  · refine ⟨_, pathSound_iff.mpr fun s hs => ?_, by rw [slice, ← sliceText_eq _ hstart]⟩
    exact pathSound_iff.mp hp s (List.mem_of_mem_drop (List.mem_of_mem_take hs))
  by_cases hlt : sliceIndex p.length start < sliceIndex p.length stop
  · rw [slice_past (not_le.mp hstart) hlt]
    rcases h with h | h | rfl | h
    · exact absurd h hstart
    · exact absurd hlt (not_lt.mpr h)
    · exact ⟨[], trivial, rfl⟩
    · exact ⟨p, hp, h.getOr_congr _ _⟩
  · refine ⟨[], trivial, ?_⟩
    have hle := not_lt.mp hlt
    rw [slice, sliceText, if_pos hle, Nat.sub_eq_zero_of_le hle, List.take_zero]
    rfl

theorem concat_eq {c : PathCache} (h : c.Faithful) {p q : Segments} (hp : PathSound p)
    (hq : PathSound q) : (c.concat p q).1 = p ++ q := by
  have hnil : ∀ {p : Segments}, PathSound p → pathText p = [] → p = [] :=
    fun hp hempty => pathText_inj hp (q := []) trivial hempty
  rw [concat]
  split_ifs with hq' hp'
  · rw [hnil hq hq', List.append_nil]
  · rw [hnil hp hp', List.nil_append]
  · rw [← pathText_append (mt (congrArg pathText) hp') (mt (congrArg pathText) hq')]
    exact h.getOr_eq (pathSound_append hp hq)

theorem pathText_eq_intercalate (p : Segments) :
    pathText p = (js ".").intercalate (p.map Segment.toText) := by
  match p with
  | [] => rfl
  | [s] => rw [pathText, pathTail, List.append_nil, List.map_singleton, List.intercalate_singleton]
  | s :: t :: p =>
      rw [pathText, pathTail, List.append_assoc, ← pathText, pathText_eq_intercalate (t :: p)]
      simp only [List.map_cons, List.intercalate_cons_cons, List.append_assoc]

/-! ## Calls -/

/-- What a program can do with paths: `segments` reads a path that an alias has. -/
inductive Call where
  | parse (str : JsString)
  | slice (path : Segments) (start stop : Int)
  | concat (path path2 : Segments)
  | stripAlias (path : Segments)
  | segments (path : Segments) (pairs : Alias) (pair : Segments × JsString)
  | rotate

/-- The paths are ones that the process has. -/
def Call.Has (s : Process) : Call → Prop
  | .parse _ | .rotate => True
  | .slice path _ _ | .stripAlias path => path ∈ s.paths
  | .concat path path2 => path ∈ s.paths ∧ path2 ∈ s.paths
  | .segments path pairs pair => path ∈ s.paths ∧ .aliases pairs ∈ path ∧ pair ∈ pairs

def Process.got (s : Process) (r : Segments × PathCache) : Process := ⟨r.2, r.1 :: s.paths⟩

def Process.call (s : Process) : Call → Process
  | .parse str =>
      match s.caches.parse str with
      | (some path, c) => s.got (path, c)
      | (none, c) => ⟨c, s.paths⟩
  | .slice path start stop => s.got (s.caches.slice path start stop)
  | .concat path path2 => s.got (s.caches.concat path path2)
  | .stripAlias path => s.got (s.caches.stripAlias path)
  | .segments _ _ pair => s.got (pair.1, s.caches)
  | .rotate => ⟨s.caches.rotate, s.paths⟩

/-- A slice that starts past the end of its path and is not empty, where the
text of the path is not cached. -/
def Call.Past (s : Process) : Call → Prop
  | .slice path start stop => path ≠ [] ∧ path.length < sliceIndex path.length start
      ∧ sliceIndex path.length start < sliceIndex path.length stop
      ∧ ¬ s.caches.Has (pathText path)
  | _ => False

/-- Runs of a process in which each call is of a kind. -/
def Calls (ok : Process → Call → Prop) : Process → Prop :=
  Reachable (· = ⟨empty, []⟩) fun s s' => ∃ call, call.Has s ∧ ok s call ∧ s' = s.call call

/-! ## What runs keep -/

theorem parse_none {c c' : PathCache} {str : JsString} (h : c.parse str = (none, c')) :
    c = c' := by
  unfold PathCache.parse at h
  cases h1 : c.cache1.get? str with
  | some path =>
      rw [h1] at h
      cases (Prod.mk.inj h).1
  | none =>
      cases h2 : c.cache2.get? str with
      | some path =>
          simp only [h1, h2] at h
          cases (Prod.mk.inj h).1
      | none =>
          cases h3 : parsePath str with
          | some path =>
              simp only [h1, h2, h3] at h
              cases (Prod.mk.inj h).1
          | none =>
              simp only [h1, h2, h3] at h
              exact (Prod.mk.inj h).2

theorem got_sound {s : Process} (h : s.Sound) {w : Segments} (hw : PathSound w) :
    (s.got (s.caches.getOr (pathText w) w)).Sound :=
  h.cons (h.1.getOr hw rfl)

theorem call_sound {s : Process} (h : s.Sound) {call : Call} (hcall : call.Has s)
    (hpast : ¬ call.Past s) : (s.call call).Sound := by
  cases call with
  | parse str =>
      rw [Process.call]
      cases hparse : s.caches.parse str with
      | mk path c =>
          cases path with
          | some path => exact h.cons (h.1.parse hparse)
          | none =>
              show Process.Sound ⟨c, s.paths⟩
              rw [← parse_none hparse]
              exact h
  | slice path start stop =>
      have hgood : sliceIndex path.length start ≤ path.length
          ∨ sliceIndex path.length stop ≤ sliceIndex path.length start ∨ path = []
          ∨ s.caches.Has (pathText path) := by
        by_contra hbad
        simp only [not_or, not_le] at hbad
        exact hpast ⟨hbad.2.2.1, hbad.1, hbad.2.1, hbad.2.2.2⟩
      obtain ⟨w, hw, hslice⟩ := slice_getOr (h.2 _ hcall) hgood
      rw [Process.call, hslice]
      exact got_sound h hw
  | concat path path2 => exact step_sound h (.concat hcall.1 hcall.2)
  | stripAlias path => exact step_sound h (.stripAlias hcall)
  | segments path pairs pair =>
      obtain ⟨inner, v⟩ := pair
      have halias : (Segment.aliases pairs).Sound := pathSound_iff.mp (h.2 _ hcall.1) _ hcall.2.1
      exact h.cons ⟨h.1, (aliasSound_iff.mp halias.1 _ hcall.2.2).2⟩
  | rotate => exact ⟨h.1.rotate, h.2⟩

/-- Slices and joins are the segments they are of, and print as these do. -/
def Process.Agrees (s : Process) : Prop :=
  (∀ p ∈ s.paths, ∀ start stop : ℕ, start ≤ stop → stop ≤ p.length →
    (s.caches.slice p start stop).1 = (p.drop start).take (stop - start)
      ∧ pathText (s.caches.slice p start stop).1
        = (js ".").intercalate (((p.drop start).take (stop - start)).map Segment.toText))
  ∧ ∀ p ∈ s.paths, ∀ q ∈ s.paths, (s.caches.concat p q).1 = p ++ q

theorem Process.Sound.agrees {s : Process} (h : s.Sound) : s.Agrees := by
  refine ⟨fun p hp start stop _ hstop => ?_, fun p hp q hq => concat_eq h.1 (h.2 p hp) (h.2 q hq)⟩
  have hslice : (s.caches.slice p start stop).1 = (p.drop start).take (stop - start) := by
    rw [slice_natCast, ← sliceText_eq _ (by omega)]
    refine h.1.getOr_eq (pathSound_iff.mpr fun t ht => ?_)
    exact pathSound_iff.mp (h.2 p hp) t (List.mem_of_mem_drop (List.mem_of_mem_take ht))
  exact ⟨hslice, by rw [hslice, pathText_eq_intercalate]⟩

/-- Where a slice past the end of a path is the first to be cached under the
text of the path, the whole path is not sliced out any more. -/
theorem past_not_agrees {s : Process} {call : Call} (hcall : call.Has s) (hpast : call.Past s) :
    ¬ (s.call call).Agrees := by
  cases call with
  | slice path start stop =>
      obtain ⟨hne, hstart, hlt, hhas⟩ := hpast
      intro h
      have hcalled : s.call (.slice path start stop)
          = ⟨s.caches.put (pathText path) [], [] :: s.paths⟩ := by
        rw [Process.call, slice_past hstart hlt, getOr_of_not_has hhas]
        rfl
      rw [hcalled] at h
      have hwhole := (h.1 path (List.mem_cons_of_mem _ hcall) 0 path.length (Nat.zero_le _) le_rfl).1
      rw [slice_natCast, ← sliceText_eq _ (Nat.zero_le _), Nat.sub_zero, List.drop_zero,
        List.take_length] at hwhole
      have hput : ((s.caches.put (pathText path) []).getOr (pathText path) path).1 = [] := by
        unfold PathCache.getOr
        rw [put, InsMap.get?_set, if_pos rfl]
      exact hne (hwhole.symm.trans hput)
  | parse | concat | stripAlias | segments | rotate => exact hpast.elim

end PathCache

end GenieAcs
