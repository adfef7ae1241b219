import GenieAcs.Device
import GenieAcs.InstanceOrder

/-!
# Unpacking paths

`unpack` finds the parameters that a path with wildcards and aliases stands for.
The matches of the path with `*` for every alias are filtered in place, alias by
alias from the last to the first and key by key; a key selects the matches that
share a beginning with one of the parameters it unpacks to.
-/

namespace GenieAcs

/-! ## Values of keys -/

def parseBool (v : JsString) : Option Bool :=
  if v = js "true" ∨ v = js "TRUE" ∨ v = js "True" ∨ v = js "1" then some true
  else if v = js "false" ∨ v = js "FALSE" ∨ v = js "False" ∨ v = js "0" then some false
  else none

/-- What `sanitizeParameterValue` makes of a text. -/
inductive Sanitized
  | bool (b : Bool)
  | number (x : WithBot (WithTop ℚ))
  | text (s : JsString)

/-- `===` with a stored value. -/
def Sanitized.is : Sanitized → Value → Bool
  | bool b, .bool b' => b = b'
  | number x, .num q => x = ((q : WithTop ℚ) : WithBot (WithTop ℚ))
  | text s, .str s' => s = s'
  | _, _ => false

/-- `value[i]` of a stored value. -/
def AttrValue.item : AttrValue → Nat → Option Value
  | array vs, i => vs[i]?.join
  | scalar (some (.str s)), i => s[i]?.map fun c => .str [c]
  | scalar _, _ => none

def Segment.plain : Segment → JsString
  | .name s => s
  | .aliases _ => star

/-- `stripAlias`. -/
def stripAlias (path : Segments) : Path := path.map Segment.plain

section

/- `Date.parse`. -/
variable (parseDate : JsString → JsNumber)

/-- `sanitizeParameterValue` of a text with a type. -/
def sanitizeText (val : JsString) (type : Option Value) : Sanitized :=
  if type = some (.str (js "xsd:boolean")) then
    match parseBool val with
    | some b => .bool b
    | none => .text val
  else if type = some (.str (js "xsd:int")) ∨ type = some (.str (js "xsd:unsignedInt")) then
    match JsNumber.parseInt val with
    | some i => .number i
    | none => .text val
  else if type = some (.str (js "xsd:dateTime")) then
    match JsNumber.ofText val with
    | some i => .number i
    | none =>
        match parseDate val with
        | some i => .number i
        | none => .text val
  else .text val

namespace DeviceData

variable (d : DeviceData)

/-- The parameter has the value of a key, in its own type. -/
def holds (up : Path) (val : JsString) : Bool :=
  match (d.attributes.get? up).bind (· .value) with
  | none => false
  | some (_, value) =>
      value.truthy && match value.item 0 with
        | some stored => (sanitizeText parseDate val (value.item 1)).is stored
        | none => false

/-! ## `unpack` -/

/-- The parameters that match a path without aliases. -/
def existing (path : Path) : List Path :=
  (d.paths.find path false true path.length).filter fun p => (d.attributes.get? p).isSome

/-- The matches that share their first `n` segments with `up` go over to
`filtered`. -/
def moveMatches (n : Nat) (st : List Path × List Path) (up : Path) : List Path × List Path :=
  (st.1 ++ st.2.filter (fun m => m.take n = up.take n), st.2.filter (fun m => m.take n ≠ up.take n))

def filterMatches (n : Nat) (ups allMatches : List Path) : List Path :=
  (ups.foldl (moveMatches n) ([], allMatches)).1

mutual

/-- The loop over the aliases of a path that follows the segments `pre`. -/
def filterPath (pre : Path) : List Segment → List Path → List Path
  | [], allMatches => allMatches
  | s :: path, allMatches =>
      filterSegment pre s (filterPath (pre ++ [s.plain]) path allMatches)

def filterSegment (pre : Path) : Segment → List Path → List Path
  | .name _, allMatches => allMatches
  | .aliases pairs, allMatches => filterPairs (pre ++ [star]) pairs allMatches

/-- The loop over the keys of an alias; the segments `pre` end with its own. -/
def filterPairs (pre : Path) : List (List Segment × JsString) → List Path → List Path
  | [], allMatches => allMatches
  | pair :: pairs, allMatches => filterPairs pre pairs (filterPair pre pair allMatches)

def filterPair (pre : Path) : List Segment × JsString → List Path → List Path
  | (param, val), allMatches =>
      let unpacked := sortPaths (filterPath pre param (d.existing (pre ++ stripAlias param)))
      filterMatches pre.length (unpacked.filter (d.holds parseDate · val)) allMatches

end

/-- `unpack` of a path that follows the segments `pre`. -/
def unpackFrom (pre : Path) (path : Segments) : List Path :=
  sortPaths (filterPath parseDate d pre path (d.existing (pre ++ stripAlias path)))

def unpack (path : Segments) : List Path := unpackFrom parseDate d [] path

/-! ## What `unpack` selects -/

variable {parseDate d} {pre : Path} {path : Segments} {p : Path}

theorem foldl_moveMatches (n : Nat) (ups : List Path) (st : List Path × List Path) :
    (∀ m, m ∈ (ups.foldl (moveMatches n) st).1
      ↔ m ∈ st.1 ∨ m ∈ st.2 ∧ ∃ up ∈ ups, m.take n = up.take n)
    ∧ ((st.1 ++ st.2).Nodup → (ups.foldl (moveMatches n) st).1.Nodup) := by
  induction ups generalizing st with
  | nil => exact ⟨fun m => by simp, fun h => h.of_append_left⟩
  | cons up ups ih =>
      obtain ⟨hmem, hnodup⟩ := ih (moveMatches n st up)
      refine ⟨fun m => ?_, fun h => hnodup ?_⟩
      · rw [List.foldl_cons, hmem]
        show m ∈ st.1 ++ st.2.filter _ ∨ m ∈ st.2.filter _ ∧ _ ↔ _
        rw [List.mem_append, List.mem_filter, List.mem_filter, decide_eq_true_eq,
          decide_eq_true_eq]
        by_cases heq : m.take n = up.take n
        · simp [heq]
        · simp [heq]
      · show ((st.1 ++ st.2.filter _) ++ st.2.filter _).Nodup
        rw [List.append_assoc]
        have hsplit : (st.2.filter (fun m => m.take n = up.take n)
            ++ st.2.filter (fun m => m.take n ≠ up.take n)).Perm st.2 := by
          have hcomp := List.filter_append_perm (fun m : Path => decide (m.take n = up.take n)) st.2
          simpa using hcomp
        exact ((hsplit.append_left st.1).nodup_iff).mpr h

theorem mem_filterMatches {n : Nat} {ups allMatches : List Path} {m : Path} :
    m ∈ filterMatches n ups allMatches ↔ m ∈ allMatches ∧ ∃ up ∈ ups, m.take n = up.take n := by
  rw [filterMatches, (foldl_moveMatches n ups _).1]
  exact or_iff_right List.not_mem_nil

theorem filterMatches_nodup {n : Nat} {ups allMatches : List Path} (h : allMatches.Nodup) :
    (filterMatches n ups allMatches).Nodup := (foldl_moveMatches n ups _).2 h

theorem filterPair_eq (pre : Path) (kv : Segments × JsString) (allMatches : List Path) :
    filterPair parseDate d pre kv allMatches = filterMatches pre.length
      ((unpackFrom parseDate d pre kv.1).filter (d.holds parseDate · kv.2)) allMatches := by
  obtain ⟨param, val⟩ := kv
  rw [filterPair]
  rfl

/-- `kv` selects `p`: the parameter it unpacks to shares the segments up to the
alias with `p`. -/
def Selects (parseDate : JsString → JsNumber) (d : DeviceData) (pre : Path)
    (kv : Segments × JsString) (p : Path) : Prop :=
  ∃ q ∈ unpackFrom parseDate d pre kv.1, d.holds parseDate q kv.2 = true
    ∧ p.take pre.length = q.take pre.length

theorem mem_filterPairs {pairs : Alias} {allMatches : List Path} :
    p ∈ filterPairs parseDate d pre pairs allMatches
      ↔ p ∈ allMatches ∧ ∀ kv ∈ pairs, Selects parseDate d pre kv p := by
  induction pairs generalizing allMatches with
  | nil => simp [filterPairs]
  | cons kv pairs ih =>
      rw [filterPairs, ih, filterPair_eq, mem_filterMatches, List.forall_mem_cons, ← and_assoc]
      refine and_congr_left' (and_congr_right' ?_)
      constructor
      · rintro ⟨q, hq, heq⟩
        obtain ⟨hmem, hholds⟩ := List.mem_filter.mp hq
        exact ⟨q, hmem, hholds, heq⟩
      · rintro ⟨q, hmem, hholds, heq⟩
        exact ⟨q, List.mem_filter.mpr ⟨hmem, hholds⟩, heq⟩

/-- The segments up to the alias at position `i`. -/
def upTo (pre : Path) (path : Segments) (i : Nat) : Path :=
  pre ++ stripAlias (path.take i) ++ [star]

theorem mem_filterPath {allMatches : List Path} :
    p ∈ filterPath parseDate d pre path allMatches
      ↔ p ∈ allMatches ∧ ∀ i pairs, path[i]? = some (.aliases pairs) → ∀ kv ∈ pairs,
        Selects parseDate d (upTo pre path i) kv p := by
  induction path generalizing pre with
  | nil => simp [filterPath]
  | cons s path ih =>
      have hrest : ∀ i, upTo (pre ++ [s.plain]) path i = upTo pre (s :: path) (i + 1) := by
        intro i
        simp [upTo, stripAlias]
      rw [filterPath]
      have hsplit : (∀ i pairs, (s :: path)[i]? = some (.aliases pairs) → ∀ kv ∈ pairs,
            Selects parseDate d (upTo pre (s :: path) i) kv p)
          ↔ (∀ i pairs, path[i]? = some (.aliases pairs) → ∀ kv ∈ pairs,
              Selects parseDate d (upTo (pre ++ [s.plain]) path i) kv p)
            ∧ ∀ pairs, s = .aliases pairs → ∀ kv ∈ pairs,
              Selects parseDate d (pre ++ [star]) kv p := by
        have hhead : upTo pre (s :: path) 0 = pre ++ [star] := by
          simp [upTo, stripAlias]
        constructor
        · intro h
          refine ⟨fun i pairs hi => ?_, fun pairs hs => hhead ▸ h 0 pairs (congrArg some hs)⟩
          rw [hrest]
          exact h (i + 1) pairs hi
        · rintro ⟨hsucc, hzero⟩ i pairs hi
          cases i with
          | zero => exact hhead ▸ hzero pairs (Option.some.inj hi)
          | succ i => exact hrest i ▸ hsucc i pairs hi
      rw [hsplit]
      cases s with
      | name f =>
          rw [filterSegment, ih]
          exact and_congr_right' (iff_self_and.mpr fun _ pairs hs => nomatch hs)
      | aliases pairs =>
          rw [filterSegment, mem_filterPairs, ih, and_assoc]
          refine and_congr_right' (and_congr_right' ?_)
          exact ⟨fun h _ hs => Segment.aliases.inj hs ▸ h, fun h => h pairs rfl⟩

theorem mem_unpackFrom :
    p ∈ unpackFrom parseDate d pre path
      ↔ p ∈ d.existing (pre ++ stripAlias path) ∧
        ∀ i pairs, path[i]? = some (.aliases pairs) → ∀ kv ∈ pairs,
          Selects parseDate d (upTo pre path i) kv p := by
  rw [unpackFrom, (sortPaths_perm _).mem_iff, mem_filterPath]

theorem filterPath_nodup {allMatches : List Path} (h : allMatches.Nodup) :
    (filterPath parseDate d pre path allMatches).Nodup := by
  induction path generalizing pre with
  | nil => exact h
  | cons s path ih =>
      rw [filterPath]
      have hrest := @ih (pre ++ [s.plain])
      generalize filterPath parseDate d (pre ++ [s.plain]) path allMatches = rest at hrest
      cases s with
      | name f => exact hrest
      | aliases pairs =>
          rw [filterSegment]
          induction pairs generalizing rest with
          | nil => exact hrest
          | cons kv pairs ih =>
              rw [filterPairs, filterPair_eq]
              exact ih _ (filterMatches_nodup hrest)

theorem filterPath_concat (u : Path) (allMatches : List Path) :
    filterPath parseDate d pre (u.map .name ++ path) allMatches
      = filterPath parseDate d (pre ++ u) path allMatches := by
  induction u generalizing pre with
  | nil => rw [List.append_nil]; rfl
  | cons f u ih =>
      rw [List.map_cons, List.cons_append, filterPath, filterSegment, ih]
      simp [Segment.plain]

/-- `unpack` of a concatenation. -/
theorem unpack_concat (u : Path) (path : Segments) :
    unpack parseDate d (u.map .name ++ path) = unpackFrom parseDate d u path := by
  have hstrip : stripAlias (u.map .name ++ path) = u ++ stripAlias path := by
    simp [stripAlias, Segment.plain, Function.comp_def]
  rw [unpack, unpackFrom, unpackFrom, filterPath_concat, hstrip]
  rfl

/-! ## Matches -/

/-- A path without aliases stands for `p`. -/
def Matches (pattern p : Path) : Prop := List.Forall₂ (fun f g => f = star ∨ g = f) pattern p

theorem matches_iff {pattern p : Path} : Matches pattern p ↔ p.length = pattern.length
    ∧ ∀ i < pattern.length, pattern[i]? = some star ∨ p[i]? = pattern[i]? := by
  induction pattern generalizing p with
  | nil =>
      rw [Matches, List.forall₂_nil_left_iff]
      simp
  | cons f pattern ih =>
      cases p with
      | nil => simp [Matches]
      | cons g p =>
          rw [Matches, List.forall₂_cons]
          have ih := @ih p
          rw [Matches] at ih
          rw [ih]
          constructor
          · rintro ⟨hhead, hlen, hrest⟩
            refine ⟨congrArg Nat.succ hlen, fun i hi => ?_⟩
            cases i with
            | zero => exact hhead.imp (congrArg some) (congrArg some)
            | succ i => exact hrest i (Nat.lt_of_succ_lt_succ hi)
          · rintro ⟨hlen, h⟩
            refine ⟨(h 0 (Nat.succ_pos _)).imp Option.some.inj Option.some.inj,
              Nat.succ.inj hlen, fun i hi => h (i + 1) (Nat.succ_lt_succ hi)⟩

theorem matches_plain {c p : Path} (h : star ∉ c) : Matches c p ↔ p = c := by
  constructor
  · intro hm
    induction hm with
    | nil => rfl
    | cons hhead _ ih =>
        rw [hhead.resolve_left fun hs => h (hs ▸ List.mem_cons_self ..),
          ih fun hmem => h (List.mem_cons_of_mem _ hmem)]
  · rintro rfl
    exact List.forall₂_same.mpr fun _ _ => Or.inr rfl

theorem matches_append {w s p : Path} :
    Matches (w ++ s) p ↔ Matches w (p.take w.length) ∧ Matches s (p.drop w.length) := by
  constructor
  · intro h
    have htake := List.forall₂_take w.length h
    have hdrop := List.forall₂_drop w.length h
    rw [List.take_left] at htake
    rw [List.drop_left] at hdrop
    exact ⟨htake, hdrop⟩
  · rintro ⟨htake, hdrop⟩
    have h : Matches (w ++ s) (p.take w.length ++ p.drop w.length) := List.rel_append htake hdrop
    rwa [List.take_append_drop] at h

/-- A parameter of the device. -/
def Has (d : DeviceData) (p : Path) : Prop := p ∈ d.paths ∧ d.attributes.get? p ≠ none

/-- Paths are interned, and parameters have no wildcards. -/
structure Sound (d : DeviceData) : Prop where
  nodup : d.paths.paths.Nodup
  plain : ∀ p, d.attributes.get? p ≠ none → star ∉ p

theorem mem_existing {path p : Path} (hlen : path.length ≤ 32) :
    p ∈ d.existing path ↔ d.Has p ∧ Matches path p := by
  rw [existing, List.mem_filter, PathSet.mem_find, Option.isSome_iff_ne_none, Has, matches_iff]
  have hagrees : ∀ i, i < path.length → (PathSet.Agrees path false true i p
      ↔ path[i]? = some star ∨ p[i]? = path[i]?) := by
    intro i hi
    have hat : path[i]? = some (path.getD i []) := by
      rw [List.getD_eq_getElem?_getD, List.getElem?_eq_getElem hi]
      rfl
    rw [PathSet.Agrees, Path.test_wildcard_iff hlen hi, ← hat]
    simp
  constructor
  · rintro ⟨⟨hmem, hge, hle, hall⟩, hattr⟩
    exact ⟨⟨hmem, hattr⟩, by omega, fun i hi => (hagrees i hi).mp (hall i hi)⟩
  · rintro ⟨⟨hmem, hattr⟩, hlen', hall⟩
    exact ⟨⟨hmem, by omega, by omega, fun i hi => (hagrees i hi).mpr (hall i hi)⟩, hattr⟩

/-- `unpack` of this path behind `k` segments, and all that it calls itself
with, is of paths whose segments have a bit each. -/
inductive Short : Nat → Segments → Prop
  | mk {k : Nat} {path : Segments} (len : k + path.length ≤ 32)
      (keys : ∀ i pairs, path[i]? = some (.aliases pairs) → ∀ kv ∈ pairs, Short (k + i + 1) kv.1) :
      Short k path

theorem stripAlias_length (path : Segments) : (stripAlias path).length = path.length :=
  List.length_map _

theorem upTo_eq {pairs : Alias} {i : Nat} (hi : path[i]? = some (.aliases pairs)) :
    upTo pre path i = (pre ++ stripAlias path).take (pre.length + i + 1) := by
  have hlt := (List.getElem?_eq_some_iff.mp hi).1
  have hget : path[i] = .aliases pairs := (List.getElem?_eq_some_iff.mp hi).2
  rw [Nat.add_assoc, List.take_length_add_append, upTo, List.append_assoc, stripAlias, stripAlias,
    ← List.map_take, List.take_succ_eq_append_getElem hlt, hget, List.map_append]
  rfl

theorem upTo_length {pairs : Alias} {i : Nat} (hi : path[i]? = some (.aliases pairs)) :
    (upTo pre path i).length = pre.length + i + 1 := by
  have hlt := (List.getElem?_eq_some_iff.mp hi).1
  rw [upTo_eq hi, List.length_take, List.length_append, stripAlias_length]
  omega

theorem matches_upTo {pairs : Alias} {i : Nat} (hi : path[i]? = some (.aliases pairs))
    (hp : Matches (pre ++ stripAlias path) p) :
    Matches (upTo pre path i) (p.take (pre.length + i + 1)) :=
  upTo_eq hi ▸ List.forall₂_take _ hp

/-- What follows a pattern and what follows a path it stands for unpack to the
same parameters below that path. -/
def Concretizes (parseDate : JsString → JsNumber) (d : DeviceData) (k : Nat) (param : Segments) :
    Prop :=
  ∀ w c q : Path, w.length = k → Matches w c → star ∉ c →
    (q ∈ unpackFrom parseDate d c param ↔ q ∈ unpackFrom parseDate d w param ∧ q.take k = c)

/-- A key sees no more of the pattern than of the path that it is to select. -/
theorem selects_iff {pairs : Alias} {i : Nat} {kv : Segments × JsString}
    (hkey : Concretizes parseDate d (pre.length + i + 1) kv.1)
    (hi : path[i]? = some (.aliases pairs)) (hp : Matches (pre ++ stripAlias path) p)
    (hplain : star ∉ p) :
    Selects parseDate d (upTo pre path i) kv p
      ↔ ∃ q ∈ unpackFrom parseDate d (p.take (pre.length + i + 1)) kv.1,
        d.holds parseDate q kv.2 = true := by
  have hiff := fun q => hkey _ _ q (upTo_length hi) (matches_upTo hi hp)
    fun hs => hplain (List.mem_of_mem_take hs)
  rw [Selects, upTo_length hi]
  constructor
  · rintro ⟨q, hq, hholds, heq⟩
    exact ⟨q, (hiff q).mpr ⟨hq, heq.symm⟩, hholds⟩
  · rintro ⟨q, hq, hholds⟩
    obtain ⟨hmem, heq⟩ := (hiff q).mp hq
    exact ⟨q, hmem, hholds, heq.symm⟩

theorem concretizes (hd : d.Sound) {k : Nat} {param : Segments} (h : Short k param) :
    Concretizes parseDate d k param := by
  induction h with
  | @mk k param hlen keys ih =>
      intro w c q hw hwc hc
      subst hw
      have hck : c.length = w.length := (List.Forall₂.length_eq hwc).symm
      have hshort : ∀ u : Path, u.length = w.length → (u ++ stripAlias param).length ≤ 32 := by
        intro u hu
        rw [List.length_append, stripAlias_length, hu]
        exact hlen
      have hboth : Matches (c ++ stripAlias param) q
          ↔ Matches (w ++ stripAlias param) q ∧ q.take w.length = c := by
        rw [matches_append, matches_append, hck, matches_plain hc]
        constructor
        · rintro ⟨htake, hdrop⟩
          exact ⟨⟨htake ▸ hwc, hdrop⟩, htake⟩
        · rintro ⟨⟨-, hdrop⟩, htake⟩
          exact ⟨htake, hdrop⟩
      rw [mem_unpackFrom, mem_unpackFrom, mem_existing (hshort c hck), mem_existing (hshort w rfl),
        hboth]
      have hselects : d.Has q → Matches (w ++ stripAlias param) q → q.take w.length = c →
          ∀ i pairs, param[i]? = some (.aliases pairs) → ∀ kv ∈ pairs,
            (Selects parseDate d (upTo c param i) kv q
              ↔ Selects parseDate d (upTo w param i) kv q) := by
        intro hhas hmatch htake i pairs hi kv hkv
        have hq := hd.plain q hhas.2
        have hkey := ih i pairs hi kv hkv
        rw [selects_iff hkey hi hmatch hq]
        rw [← hck] at hkey ⊢
        exact selects_iff hkey hi (hboth.mpr ⟨hmatch, htake⟩) hq
      constructor
      · rintro ⟨⟨hhas, hmatch, htake⟩, hkeys⟩
        exact ⟨⟨⟨hhas, hmatch⟩, fun i pairs hi kv hkv =>
          (hselects hhas hmatch htake i pairs hi kv hkv).mp (hkeys i pairs hi kv hkv)⟩, htake⟩
      · rintro ⟨⟨⟨hhas, hmatch⟩, hkeys⟩, htake⟩
        exact ⟨⟨hhas, hmatch, htake⟩, fun i pairs hi kv hkv =>
          (hselects hhas hmatch htake i pairs hi kv hkv).mpr (hkeys i pairs hi kv hkv)⟩

/-- A path without aliases is short if it has a bit for each of its segments. -/
theorem short_names {k : Nat} {u : Path} (h : k + u.length ≤ 32) : Short k (u.map .name) := by
  refine Short.mk (by rwa [List.length_map]) fun i pairs hi => ?_
  rw [List.getElem?_map] at hi
  obtain ⟨f, -, hf⟩ := Option.map_eq_some_iff.mp hi
  cases hf

theorem unpack_nodup (hd : d.Sound) (path : Segments) : (unpack parseDate d path).Nodup := by
  rw [unpack, unpackFrom, (sortPaths_perm _).nodup_iff]
  exact filterPath_nodup ((PathSet.find_nodup hd.nodup _ false true _).filter _)

/-! ## Sound data -/

theorem sound_init : initDeviceData.Sound where
  nodup := List.nodup_nil
  plain _ h := absurd rfl h

theorem Sound.congr {d d' : DeviceData} (h : d.Sound) (hpaths : d'.paths = d.paths)
    (hattrs : ∀ p, d'.attributes.get? p ≠ none → d.attributes.get? p ≠ none) : d'.Sound where
  nodup := hpaths ▸ h.nodup
  plain p hp := h.plain p (hattrs p hp)

theorem Sound.add {d : DeviceData} (h : d.Sound) (path : Path) :
    Sound { d with paths := d.paths.add path } :=
  ⟨PathSet.add_nodup h.nodup path, h.plain⟩

theorem Sound.track {d : DeviceData} (h : d.Sound) (path : Path) (marker : Marker)
    (attributes : List AttrName) : (d.track path marker attributes).Sound :=
  (h.add path).congr rfl fun _ hp => hp

theorem Sound.clear {d : DeviceData} (h : d.Sound) (c : Clear) : (d.clear c).Sound := by
  obtain ⟨hpaths, -, -, hattrs⟩ := clear_spec d c
  refine h.congr hpaths fun p hp hnone => hp ?_
  rw [hattrs, hnone, Clear.attributesAfter]
  cases d.timestamps.get? p <;> simp [attributesLeft]

theorem Sound.written {d : DeviceData} (h : d.Sound) (path : Path) (timestamp : Timestamp)
    (attributes : Option Attributes) : (d.written path timestamp attributes).data.Sound := by
  obtain ⟨hpaths, -, -, hframe⟩ :=
    write_frame { d with paths := d.paths.add path } path timestamp attributes
  have hadd := h.add path
  refine ⟨hpaths ▸ hadd.nodup, fun p hp hstar => ?_⟩
  by_cases heq : p = path
  · subst heq
    have hwild : p.wildcard ≠ 0 := fun hzero => Path.wildcard_eq_zero.mp hzero hstar
    have hsame : (d.written p timestamp attributes).data.attributes = d.attributes := by
      simp only [DeviceData.written, write, if_pos hwild, writeWildcard]
      split_ifs <;> rfl
    rw [hsame] at hp
    exact h.plain p hp hstar
  · exact hadd.plain p ((hframe p heq).2 ▸ hp) hstar

theorem Sound.set {d : DeviceData} (h : d.Sound) (path : Path) (timestamp : Timestamp)
    (attributes : Option Attributes) (toClear : List Clear) :
    (d.set path timestamp attributes toClear).1.Sound := by
  induction d, path, timestamp, attributes using DeviceData.set.induct toClear with
  | case1 d path timestamp attributes w ih =>
      have hannounced : ∀ (above : DeviceData × List Clear), above.1.Sound →
          (announce above.1 path w.timestamp attributes w.changeFlags above.2).1.Sound := by
        intro above habove
        obtain ⟨hpaths, -, -, hattrs, -⟩ :=
          announce_frame above.1 path w.timestamp attributes w.changeFlags above.2
        exact habove.congr hpaths fun p hp => hattrs ▸ hp
      by_cases hup : w.raised = true ∧ 1 < path.length
      · rw [set_raised hup]
        exact hannounced _ (ih hup (h.written path timestamp attributes))
      · rw [set_done hup]
        exact hannounced (w.data, toClear ++ w.toClear) (h.written path timestamp attributes)

/-! ## `unpack` and its keys -/

/-- The same parameters with the same attributes, whatever the order they were
added in. -/
def SameContents (d d' : DeviceData) : Prop :=
  (∀ p, p ∈ d.paths ↔ p ∈ d'.paths) ∧ ∀ p, d.attributes.get? p = d'.attributes.get? p

theorem SameContents.mem_existing {d d' : DeviceData} (h : SameContents d d') (path p : Path) :
    p ∈ d.existing path ↔ p ∈ d'.existing path := by
  rw [existing, existing, List.mem_filter, List.mem_filter, PathSet.mem_find, PathSet.mem_find,
    h.1, h.2]

theorem SameContents.holds {d d' : DeviceData} (h : SameContents d d') (up : Path)
    (val : JsString) : d.holds parseDate up val = d'.holds parseDate up val := by
  rw [DeviceData.holds, DeviceData.holds, h.2]

theorem sizeOf_key {pairs : Alias} {i : Nat} {kv : Segments × JsString}
    (hi : path[i]? = some (.aliases pairs)) (hkv : kv ∈ pairs) : sizeOf kv.1 < sizeOf path := by
  have h1 := List.sizeOf_lt_of_mem (List.mem_of_getElem? hi)
  have h2 := List.sizeOf_lt_of_mem hkv
  obtain ⟨param, val⟩ := kv
  simp only [Segment.aliases.sizeOf_spec, Prod.mk.sizeOf_spec] at h1 h2 ⊢
  omega

theorem SameContents.mem_unpackFrom {d d' : DeviceData} (h : SameContents d d') (path : Segments)
    (pre p : Path) :
    p ∈ unpackFrom parseDate d pre path ↔ p ∈ unpackFrom parseDate d' pre path := by
  rw [DeviceData.mem_unpackFrom, DeviceData.mem_unpackFrom, h.mem_existing]
  refine and_congr_right' (forall₄_congr fun i pairs hi kv => forall_congr' fun hkv => ?_)
  have hsmaller := sizeOf_key hi hkv
  refine exists_congr fun q => and_congr (h.mem_unpackFrom kv.1 _ q) ?_
  rw [h.holds]
termination_by sizeOf path

theorem SameContents.unpack_perm {d d' : DeviceData} (h : SameContents d d') (hd : d.Sound)
    (hd' : d'.Sound) (path : Segments) :
    (unpack parseDate d path).Perm (unpack parseDate d' path) :=
  (List.perm_ext_iff_of_nodup (unpack_nodup hd path) (unpack_nodup hd' path)).mpr
    fun p => h.mem_unpackFrom path [] p

/-- On paths of one length the comparison is an order just when it is never
ambiguous, and then parameters are unpacked in one order however they were added. -/
theorem unpack_order_iff {S : Set Path} {n : Nat} (hS : ∀ p ∈ S, p.length = n) :
    (Ordered S ∧ ∀ (parseDate : JsString → JsNumber) (d d' : DeviceData) (path : Segments),
      d.Sound → d'.Sound → SameContents d d' → (∀ p ∈ unpack parseDate d path, p ∈ S) →
      unpack parseDate d path = unpack parseDate d' path) ↔ Unambiguous S := by
  refine ⟨fun h => h.1.unambiguous, fun h => ⟨h.ordered hS, ?_⟩⟩
  intro parseDate d d' path hd hd' hsame hmem
  have hperm : (unpack parseDate d path).Perm (unpack parseDate d' path) :=
    hsame.unpack_perm hd hd' path
  have hsorted : ∀ d : DeviceData, (unpack parseDate d path).Perm
      (filterPath parseDate d [] path (d.existing (stripAlias path))) :=
    fun _ => sortPaths_perm _
  exact (h.ordered hS).sortPaths_eq (fun p hp => hmem p ((hsorted d).mem_iff.mpr hp))
    ((hsorted d).symm.trans (hperm.trans (hsorted d')))

theorem unpack_order_two : let S : Set Path := {[js "a", js "9"], [js "a", js "10"]}
    (Ordered S ∧ ∀ (parseDate : JsString → JsNumber) (d d' : DeviceData) (path : Segments),
      d.Sound → d'.Sound → SameContents d d' → (∀ p ∈ unpack parseDate d path, p ∈ S) →
      unpack parseDate d path = unpack parseDate d' path) ↔ Unambiguous S := by
  refine unpack_order_iff (n := 2) ?_
  rintro p (rfl | rfl) <;> rfl

/-- `2` is before `10` as a number, and `1a` between `10` and `2` as a text. -/
theorem instances_not_ordered :
    let l := [[js "a", js "2"], [js "a", js "10"], [js "a", js "1a"]]
    (∀ p ∈ l, p.length = 2 ∧ ∀ f ∈ p, f ≠ [] ∧ f.all legalChar = true) ∧ l.Nodup
      ∧ ¬ Ordered {p | p ∈ l} ∧ ∃ l', l'.Perm l ∧ sortPaths l' ≠ sortPaths l := by
  intro l
  refine ⟨by decide +kernel, by decide +kernel, fun h => ?_,
    [[js "a", js "10"], [js "a", js "1a"], [js "a", js "2"]], by decide +kernel, by decide +kernel⟩
  have hlt := h.trans [js "a", js "2"] (List.mem_cons_self ..) [js "a", js "10"]
    (List.mem_cons_of_mem _ (List.mem_cons_self ..)) [js "a", js "1a"]
    (List.mem_cons_of_mem _ (List.mem_cons_of_mem _ (List.mem_cons_self ..)))
    (by decide +kernel) (by decide +kernel)
  exact absurd hlt (by decide +kernel)

end DeviceData

end

end GenieAcs
