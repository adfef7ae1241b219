import GenieAcs.Device

/-!
# Writes at one time

What `set` does when everything it writes carries its own timestamp: the
attributes it leaves at the path, and the clears it asks for, which drop what is
older than the write and spare what is not.
-/

namespace GenieAcs

namespace DeviceData

/-! ## Writing attributes -/

/-- Attributes that make a path a parameter: an object other than 1, or a
value. -/
def Shuts (a : Attributes) : Prop :=
  (∃ n, a .object = some n ∧ n.2 ≠ .num 1) ∨ ∃ n, a .value = some n ∧ n.2.truthy = true

section Written

variable {a cur : Attributes} {t : Timestamp}

theorem withObject_cases (a : Attributes) : withObject a = a ∨ ∃ stamp v,
    a .value = some (stamp, v) ∧ v.truthy = true
      ∧ withObject a = Function.update a .object (some (stamp, .num 0)) := by
  cases hv : a .value with
  | none => exact Or.inl (by rw [withObject, hv])
  | some n =>
      obtain ⟨stamp, v⟩ := n
      by_cases h : v.truthy = true ∧ ((a .object).map Prod.fst).getD 0 ≤ stamp
      · exact Or.inr ⟨stamp, v, rfl, h.1, by simp only [withObject, hv, if_pos h]⟩
      · exact Or.inl (by simp only [withObject, hv, if_neg h])

theorem withoutValue_cases (a : Attributes) : withoutValue a = a ∨ ∃ stamp v,
    a .object = some (stamp, v)
      ∧ withoutValue a = Function.update a .value (some (stamp, .null)) := by
  cases ho : a .object with
  | none => exact Or.inl (by rw [withoutValue, ho])
  | some n =>
      obtain ⟨stamp, v⟩ := n
      by_cases h : v.truthy = true ∧ ((a .value).map Prod.fst).getD 0 ≤ stamp
      · exact Or.inr ⟨stamp, v, rfl, by simp only [withoutValue, ho, if_pos h]⟩
      · exact Or.inl (by simp only [withoutValue, ho, if_neg h])

theorem withoutValue_object : withoutValue a .object = a .object := by
  rcases withoutValue_cases a with heq | ⟨stamp, v, -, heq⟩
  · rw [heq]
  · rw [heq]
    rfl

theorem withObject_of_not_shuts (h : ¬ Shuts a) : withObject a = a := by
  rcases withObject_cases a with heq | ⟨stamp, v, hv, htruthy, -⟩
  · exact heq
  · exact absurd (Or.inr ⟨_, hv, htruthy⟩) h

/-- The two adjustments of `set` keep to the timestamps of the attributes. -/
theorem adjusted_stamps (h : ∀ x n, a x = some n → n.1 = t) :
    ∀ x n, withoutValue (withObject a) x = some n → n.1 = t := by
  have hupdate : ∀ (a : Attributes) (y : AttrName) (m : Timestamp × AttrValue),
      (∀ x n, a x = some n → n.1 = t) → m.1 = t →
      ∀ x n, Function.update a y (some m) x = some n → n.1 = t := by
    intro a y m ha hm x n hx
    by_cases hxy : x = y
    · subst hxy
      rw [Function.update_self] at hx
      obtain rfl := Option.some.inj hx
      exact hm
    · rw [Function.update_of_ne hxy] at hx
      exact ha x n hx
  have hobject : ∀ x n, withObject a x = some n → n.1 = t := by
    rcases withObject_cases a with heq | ⟨stamp, v, hv, -, heq⟩
    · rw [heq]
      exact h
    · have hstamp : stamp = t := h .value _ hv
      rw [heq]
      exact hupdate a .object _ h hstamp
  rcases withoutValue_cases (withObject a) with heq | ⟨stamp, v, ho, heq⟩
  · rw [heq]
    exact hobject
  · have hstamp : stamp = t := hobject .object _ ho
    rw [heq]
    exact hupdate _ .value _ hobject hstamp

theorem parentAttributes_stamps : ∀ x n, parentAttributes t x = some n → n.1 = t := by
  intro x n hx
  unfold parentAttributes at hx
  by_cases hxo : x = .object
  · subst hxo
    rw [Function.update_self] at hx
    obtain rfl := Option.some.inj hx
    rfl
  · rw [Function.update_of_ne hxo] at hx
    cases hx

theorem parentAttributes_opens : ¬ Shuts (parentAttributes t) := by
  rintro (⟨n, hn, hne⟩ | ⟨n, hn, -⟩)
  · obtain rfl := Option.some.inj hn
    exact hne rfl
  · cases hn

/-- The attributes after a write. -/
def joined (current : Option Attributes) (a : Attributes) : Attributes :=
  match current with
  | some cur => merge cur a
  | none => a

theorem merge_stamps {s : Timestamp} (hcur : ∀ x n, cur x = some n → n.1 ≤ s)
    (ha : ∀ x n, a x = some n → n.1 ≤ s) : ∀ x n, merge cur a x = some n → n.1 ≤ s := by
  intro x n hx
  rw [merge] at hx
  cases hax : a x with
  | none =>
      rw [hax] at hx
      exact hcur x n hx
  | some m =>
      cases hcx : cur x with
      | none =>
          rw [hax, hcx] at hx
          obtain rfl := Option.some.inj hx
          exact ha x _ hax
      | some c =>
          rw [hax, hcx] at hx
          replace hx : (if m.1 ≤ c.1 then some c else some m) = some n := hx
          split_ifs at hx
          · obtain rfl := Option.some.inj hx
            exact hcur x _ hcx
          · obtain rfl := Option.some.inj hx
            exact ha x _ hax

/-- The current attributes are those stored, as no timestamp is 0. -/
theorem currentAttributes_interned {d : DeviceData} {path : Path}
    (htimes : ∀ s, d.timestamps.get? path = some s → 0 < s ∧ s ≤ t)
    (hstored : (d.attributes.get? path).isSome = true → ∃ s, d.timestamps.get? path = some s) :
    currentAttributes { d with paths := d.paths.add path } path = d.attributes.get? path := by
  unfold currentAttributes
  dsimp only
  cases ht : d.timestamps.get? path with
  | none =>
      cases hattrs : d.attributes.get? path with
      | none => rfl
      | some cur =>
          rw [hattrs, ht] at hstored
          obtain ⟨s, hs⟩ := hstored rfl
          cases hs
  | some s => exact if_pos (htimes s ht).1.ne'

theorem isNewer_iff_ne {current : Option Timestamp} (h : ∀ s, current = some s → s ≤ t) :
    isNewer t current = true ↔ current ≠ some t := by
  rw [isNewer_iff]
  constructor
  · intro hlt heq
    exact lt_irrefl t (hlt t heq)
  · intro hne s hs
    refine lt_of_le_of_ne (h s hs) fun heq => hne ?_
    rw [hs, heq]

/-- What `set` writes at a path without wildcards, when nothing it writes is
older than what is there. -/
theorem written_attributes {d : DeviceData} {path : Path} (hplain : star ∉ path)
    (htimes : ∀ s, d.timestamps.get? path = some s → 0 < s ∧ s ≤ t)
    (hstored : (d.attributes.get? path).isSome = true → ∃ s, d.timestamps.get? path = some s)
    (ha : ∀ x n, a x = some n → n.1 = t) :
    let w := d.written path t (some a)
    let a' := withoutValue (withObject a)
    w.timestamp = t ∧ w.toClear = []
      ∧ (w.raised = true ↔ d.timestamps.get? path ≠ some t)
      ∧ w.data.timestamps.get? path = some t
      ∧ w.data.attributes.get? path = some (joined (d.attributes.get? path) a')
      ∧ w.changeFlags = match d.attributes.get? path with
          | some cur => AttrName.flags (changed cur a')
          | none => 1 := by
  intro w a'
  have hw : w = { d with paths := d.paths.add path }.writeAttributes path t a' := by
    show DeviceData.write _ path t (some a) = _
    rw [write, if_neg (not_not.mpr (Path.wildcard_eq_zero.mpr hplain))]
  have hcurrent := currentAttributes_interned htimes hstored
  have hlatest : latest t a' = t :=
    latest_eq fun x n hx => (adjusted_stamps ha x n hx).le
  have hnewer := isNewer_iff_ne fun s hs => (htimes s hs).2
  rw [hw, writeAttributes, hcurrent]
  by_cases hraise : isNewer t (d.timestamps.get? path) = true
  · cases hattrs : d.attributes.get? path with
    | none =>
        simp only [if_pos hraise]
        exact ⟨trivial, trivial, iff_of_true trivial (hnewer.mp hraise), InsMap.get?_set_self _ _ _,
          InsMap.get?_set_self _ _ _, trivial⟩
    | some cur =>
        simp only [hlatest, if_pos hraise]
        exact ⟨trivial, trivial, iff_of_true trivial (hnewer.mp hraise), InsMap.get?_set_self _ _ _,
          InsMap.get?_set_self _ _ _, trivial⟩
  · have hsame : d.timestamps.get? path = some t := by
      by_contra hne
      exact hraise (hnewer.mpr hne)
    cases hattrs : d.attributes.get? path with
    | none =>
        simp only [if_neg hraise]
        exact ⟨trivial, trivial, iff_of_false Bool.false_ne_true (fun h => h hsame), hsame,
          InsMap.get?_set_self _ _ _, trivial⟩
    | some cur =>
        simp only [hlatest, if_neg hraise]
        exact ⟨trivial, trivial, iff_of_false Bool.false_ne_true (fun h => h hsame), hsame,
          InsMap.get?_set_self _ _ _, trivial⟩

/-- A write keeps an object that the batch has opened, or opens it. -/
theorem joined_parent {current : Option Attributes}
    (h : ∀ cur stamp v, current = some cur → cur .object = some (stamp, v) →
      stamp ≤ t ∧ (stamp = t → v = .num 1)) :
    joined current (withoutValue (withObject (parentAttributes t))) .object
      = some (t, .num 1) := by
  have hobject : withoutValue (withObject (parentAttributes t)) .object = some (t, .num 1) := by
    rw [withoutValue_object, withObject_of_not_shuts parentAttributes_opens]
    rfl
  cases current with
  | none => exact hobject
  | some cur =>
      show merge cur _ .object = _
      rw [merge, hobject]
      cases hc : cur .object with
      | none => rfl
      | some c =>
          obtain ⟨stamp, v⟩ := c
          obtain ⟨hle, hv⟩ := h cur stamp v rfl hc
          show (if t ≤ stamp then some (stamp, v) else some (t, .num 1)) = some (t, .num 1)
          by_cases hts : t ≤ stamp
          · obtain rfl : stamp = t := le_antisymm hle hts
            rw [if_pos hts, hv rfl]
          · rw [if_neg hts]

/-- A write that does not shut a path leaves no object other than 1 of its own
time there. -/
theorem joined_opened {current : Option Attributes} (ha : ¬ Shuts a)
    (h : ∀ cur v, current = some cur → cur .object = some (t, v) → v = .num 1) :
    ∀ v, joined current (withoutValue (withObject a)) .object = some (t, v) → v = .num 1 := by
  have hown : ∀ n, withoutValue (withObject a) .object = some n → n.2 = .num 1 := by
    intro n hn
    rw [withoutValue_object, withObject_of_not_shuts ha] at hn
    by_contra hne
    exact ha (Or.inl ⟨n, hn, hne⟩)
  intro v hv
  cases current with
  | none => exact hown _ hv
  | some cur =>
      replace hv : merge cur (withoutValue (withObject a)) .object = some (t, v) := hv
      rw [merge] at hv
      cases hnew : withoutValue (withObject a) .object with
      | none =>
          rw [hnew] at hv
          exact h cur v rfl hv
      | some n =>
          cases hold : cur .object with
          | none =>
              rw [hnew, hold] at hv
              obtain rfl := Option.some.inj hv
              exact hown _ hnew
          | some c =>
              rw [hnew, hold] at hv
              replace hv : (if n.1 ≤ c.1 then some c else some n) = some (t, v) := hv
              split_ifs at hv
              · obtain rfl := Option.some.inj hv
                exact h cur v rfl hold
              · obtain rfl := Option.some.inj hv
                exact hown _ hnew

/-- A write keeps an object as it is, or its flags say so. -/
theorem joined_kept {cur : Attributes} {stamp : Timestamp}
    (h : cur .object = some (stamp, .num 1)) :
    (∃ stamp', joined (some cur) a .object = some (stamp', .num 1))
      ∨ (∃ n, a .object = some n)
        ∧ (AttrName.flags (changed cur a)).testBit AttrName.object.bit = true := by
  cases hnew : a .object with
  | none =>
      refine Or.inl ⟨stamp, ?_⟩
      show merge cur a .object = _
      rw [merge, hnew, h]
  | some n =>
      have hmerge : joined (some cur) a .object
          = if n.1 ≤ stamp then some (stamp, .num 1) else some n := by
        show merge cur a .object = _
        rw [merge, hnew, h]
      rw [hmerge]
      by_cases hle : n.1 ≤ stamp
      · exact Or.inl ⟨stamp, if_pos hle⟩
      · by_cases hv : n.2 = .num 1
        · refine Or.inl ⟨n.1, ?_⟩
          rw [if_neg hle, ← hv]
        · refine Or.inr ⟨⟨n, rfl⟩, ?_⟩
          rw [AttrName.testBit_flags, changed, hnew, h]
          simp [hle, AttrValue.compareEquality, hv]

/-- A write at the time of the object above changes nothing about it. -/
theorem joined_fresh {cur : Attributes} {v : AttrValue} (ha : ∀ x n, a x = some n → n.1 = t)
    (h : cur .object = some (t, v)) : joined (some cur) a .object = some (t, v) := by
  show merge cur a .object = _
  rw [merge, h]
  cases hnew : a .object with
  | none => rfl
  | some n =>
      show (if n.1 ≤ t then some (t, v) else some n) = some (t, v)
      rw [if_pos (ha .object n hnew).le]

end Written

/-! ## The clears of a write -/

/-- Clears that drop what is older than `t`, at and below a path or below it. -/
def Shaped (t : Timestamp) (c : Clear) : Prop :=
  (c.timestamp = t ∧ c.attributes = none)
    ∨ (c.timestamp = 0 ∧ c.attributes = some (Function.update (fun _ => none) .object (some t))
      ∧ star ∉ c.path)

section Clears

variable {d : DeviceData} {path : Path} {a : Attributes} {toClear : List Clear}

/-- What `announce` asks to clear below a path that was written. -/
theorem announce_clears (d : DeviceData) {t : Timestamp} {flags : Nat} (hplain : star ∉ path)
    (ha : flags.testBit 0 = false → flags.testBit AttrName.object.bit = true →
      ∃ n, withoutValue (withObject a) .object = some n ∧ n.1 = t) :
    (∀ c ∈ (announce d path t (some a) flags toClear).2, c ∈ toClear ∨ Shaped t c)
      ∧ (flags.testBit 0 = true ∨ flags.testBit AttrName.object.bit = true →
        ∃ c ∈ (announce d path t (some a) flags toClear).2, c.path = path ∧ Shaped t c) := by
  have hlast : ∀ (c : Clear), Shaped t c → c.path = path →
      (∀ e ∈ toClear ++ [c], e ∈ toClear ∨ Shaped t e)
        ∧ ∃ e ∈ toClear ++ [c], e.path = path ∧ Shaped t e := by
    intro c hc hpath
    refine ⟨fun e he => ?_, c, List.mem_append_right _ (List.mem_singleton_self c), hpath, hc⟩
    rcases List.mem_append.mp he with he | he
    · exact Or.inl he
    · exact Or.inr (List.mem_singleton.mp he ▸ hc)
  unfold announce
  by_cases hzero : flags.testBit 0 = true
  · rw [if_pos hzero]
    obtain ⟨hall, hone⟩ := hlast ⟨path, t, none, flags⟩ (Or.inl ⟨rfl, rfl⟩) rfl
    exact ⟨hall, fun _ => hone⟩
  · rw [if_neg hzero]
    by_cases hobject : flags.testBit AttrName.object.bit = true
    · rw [if_pos hobject]
      obtain ⟨n, hn, hstamp⟩ := ha (by simpa using hzero) hobject
      have hgiven : (((some a).map fun a => withoutValue (withObject a)).bind (· .object)).map
          Prod.fst = some t := by
        show (withoutValue (withObject a) .object).map Prod.fst = some t
        rw [hn, ← hstamp]
        rfl
      rw [hgiven]
      obtain ⟨hall, hone⟩ := hlast
        ⟨path, 0, some (Function.update (fun _ => none) .object (some t)), flags⟩
        (Or.inr ⟨rfl, rfl, hplain⟩) rfl
      exact ⟨hall, fun _ => hone⟩
    · rw [if_neg hobject]
      refine ⟨fun c hc => Or.inl ?_, fun h => absurd h (by simp [hzero, hobject])⟩
      split_ifs at hc
      · exact hc
      · exact hc

theorem Shaped.descendants {t : Timestamp} {c : Clear} (hpos : 0 < t) (h : Shaped t c) :
    descendantsTimestamp c.timestamp c.attributes = t := by
  rcases h with ⟨htime, hnone⟩ | ⟨htime, hsome, -⟩
  · rw [htime, hnone]
    rfl
  · rw [htime, hsome]
    exact if_pos ⟨hpos.ne', hpos⟩

/-- Below the path of a clear whatever is older is dropped. -/
theorem Shaped.removes_below {t s : Timestamp} {c : Clear} {p : Path} (hpos : 0 < t)
    (h : Shaped t c) (hlen : c.path.length < p.length) (hlt : s < t) :
    Removes c.path c.timestamp (descendantsTimestamp c.timestamp c.attributes) p s := by
  rw [h.descendants hpos]
  exact Or.inr ⟨hlt, hlen⟩

theorem Shaped.removes_lt {t s : Timestamp} {c : Clear} {p : Path} (hpos : 0 < t) (hs : 0 < s)
    (h : Shaped t c)
    (hr : Removes c.path c.timestamp (descendantsTimestamp c.timestamp c.attributes) p s) :
    s < t := by
  rw [h.descendants hpos] at hr
  rcases hr with hlt | ⟨hlt, -⟩
  · rcases h with ⟨htime, -⟩ | ⟨htime, -, -⟩
    · exact htime ▸ hlt
    · rw [htime] at hlt
      exact absurd hlt (not_lt.mpr hs.le)
  · exact hlt

/-- What is dropped at a path is dropped below it. -/
theorem removes_mono {c : Clear} {desc : Timestamp} {p q : Path} {s s' : Timestamp}
    (h : Removes c.path c.timestamp desc q s') (hqp : q <+: p) (hle : s ≤ s') :
    Removes c.path c.timestamp desc p s := by
  rcases h with hlt | ⟨hlt, hlen⟩
  · exact Or.inl (lt_of_le_of_lt hle hlt)
  · exact Or.inr ⟨lt_of_le_of_lt hle hlt, lt_of_lt_of_le hlen hqp.length_le⟩

/-- A clear finds what is below what it finds. -/
theorem found_below {t : Timestamp} {c : Clear} {p q : Path} (hpos : 0 < t) (hc : Shaped t c)
    (hq : q ∈ d.found c) (hqp : q <+: p) (hp : p ∈ d.paths) (hlen : p.length ≤ 99) :
    p ∈ d.found c := by
  obtain ⟨-, hge, -, hagrees⟩ := PathSet.mem_find.mp hq
  have hle := hqp.length_le
  refine PathSet.mem_find.mpr ⟨hp, hge.trans hle, ?_, fun i hi => ?_⟩
  · rw [clearDepth, hc.descendants hpos, if_pos hpos.ne']
    exact hlen
  · have hsame : p[i]? = q[i]? := by
      obtain ⟨rest, rfl⟩ := hqp
      exact List.getElem?_append_left (lt_of_lt_of_le hi hge)
    rw [PathSet.Agrees, hsame]
    exact hagrees i hi

/-- A clear finds what is below its own path. -/
theorem found_under {t : Timestamp} {c : Clear} {p : Path} (hpos : 0 < t) (hc : Shaped t c)
    (hcp : c.path <+: p) (hp : p ∈ d.paths) (hlen : p.length ≤ 99) : p ∈ d.found c := by
  refine PathSet.mem_find.mpr ⟨hp, hcp.length_le, ?_, fun i hi => Or.inr (Or.inl ?_)⟩
  · rw [clearDepth, hc.descendants hpos, if_pos hpos.ne']
    exact hlen
  · obtain ⟨rest, rfl⟩ := hcp
    rw [List.getElem?_append_left hi, List.getD_eq_getElem?_getD, List.getElem?_eq_getElem hi]
    rfl

/-- Attributes are only taken from the path of the clear itself. -/
theorem kept_elsewhere {t : Timestamp} {c : Clear} {p : Path} (hc : Shaped t c)
    (hp : p ∈ d.found c) (hplain : star ∉ p) (hne : p ≠ c.path) (current : Attributes) :
    kept c.path (c.attributes.map withValue) p current = current := by
  rcases hc with ⟨-, hnone⟩ | ⟨-, hsome, hcplain⟩
  · rw [hnone]
    rfl
  · rw [hsome]
    apply kept_of_not_outdated
    rintro ⟨hlen, -⟩
    refine hne (List.ext_getElem? fun i => ?_)
    by_cases hi : i < c.path.length
    · obtain ⟨-, -, -, hagrees⟩ := PathSet.mem_find.mp hp
      rcases hagrees i hi with ⟨htest, -⟩ | heq | ⟨-, -, heq⟩
      · rw [Path.test_of_plain hcplain] at htest
        cases htest
      · rw [heq, List.getD_eq_getElem?_getD, List.getElem?_eq_getElem hi]
        rfl
      · exact absurd (List.mem_iff_getElem?.mpr ⟨i, heq⟩) hplain
    · rw [List.getElem?_eq_none (by omega), List.getElem?_eq_none (by omega)]

/-- An attribute of the time of the batch is not outdated. -/
theorem kept_now {t : Timestamp} {c : Clear} {p : Path} (hpos : 0 < t) (hc : Shaped t c)
    {current : Attributes} {a : AttrName} {v : AttrValue} (h : current a = some (t, v)) :
    kept c.path (c.attributes.map withValue) p current a = some (t, v) := by
  rcases hc with ⟨-, hnone⟩ | ⟨-, hsome, -⟩
  · rw [hnone]
    exact h
  · rw [hsome]
    have hvalue : withValue (Function.update (fun _ => none) .object (some t))
        = Function.update (Function.update (fun _ => none) .object (some t)) .value (some t) :=
      if_pos hpos.ne'
    show (if _ then none else current a) = some (t, v)
    rw [if_neg, h]
    rintro ⟨-, hout⟩
    rw [outdated, h, hvalue] at hout
    cases a <;> simp [Function.update] at hout

/-- `p`, with timestamp `s`, is left by the clear. -/
def Spared (d : DeviceData) (c : Clear) (p : Path) (s : Timestamp) : Prop :=
  p ∈ d.found c →
    ¬ Removes c.path c.timestamp (descendantsTimestamp c.timestamp c.attributes) p s

theorem clear_timestamp {c : Clear} {p : Path} {s : Timestamp}
    (h : (d.clear c).timestamps.get? p = some s) :
    d.timestamps.get? p = some s ∧ d.Spared c p s := by
  rw [(clear_spec d c).2.2.1] at h
  by_cases hp : p ∈ d.found c
  · rw [if_pos hp, Clear.timestampAfter] at h
    cases ht : d.timestamps.get? p with
    | none =>
        rw [ht] at h
        cases h
    | some s' =>
        rw [ht] at h
        replace h : (if Removes c.path c.timestamp
          (descendantsTimestamp c.timestamp c.attributes) p s' then none else some s') = some s := h
        split_ifs at h with hr
        obtain rfl := Option.some.inj h
        exact ⟨rfl, fun _ => hr⟩
  · rw [if_neg hp] at h
    exact ⟨h, fun hin => absurd hin hp⟩

theorem clear_spares {c : Clear} {p : Path} {s : Timestamp} {current : Attributes}
    (ht : d.timestamps.get? p = some s) (hcur : d.attributes.get? p = some current)
    (h : d.Spared c p s) : (d.clear c).timestamps.get? p = some s
      ∧ ∃ current', (d.clear c).attributes.get? p = some current'
        ∧ (current' = current
          ∨ p ∈ d.found c ∧ current' = kept c.path (c.attributes.map withValue) p current) := by
  obtain ⟨-, -, htimes, hattrs⟩ := clear_spec d c
  by_cases hp : p ∈ d.found c
  · have hr := h hp
    refine ⟨?_, _, ?_, Or.inr ⟨hp, rfl⟩⟩
    · rw [htimes, if_pos hp, Clear.timestampAfter, ht]
      exact if_neg hr
    · rw [hattrs, if_pos hp, Clear.attributesAfter, ht, hcur]
      exact if_neg hr
  · refine ⟨?_, current, ?_, Or.inl rfl⟩
    · rw [htimes, if_neg hp, ht]
    · rw [hattrs, if_neg hp, hcur]

theorem clear_none {c : Clear} {p : Path} (h : d.attributes.get? p = none) :
    (d.clear c).attributes.get? p = none := by
  rw [(clear_spec d c).2.2.2, h]
  by_cases hp : p ∈ d.found c
  · rw [if_pos hp, Clear.attributesAfter]
    cases d.timestamps.get? p with
    | none => rfl
    | some t => exact ite_self _
  · exact if_neg hp

theorem clear_survivor {c : Clear} {p : Path} {current' : Attributes}
    (hstored : (d.attributes.get? p).isSome = true → ∃ s, d.timestamps.get? p = some s)
    (h : (d.clear c).attributes.get? p = some current') :
    ∃ current s, d.attributes.get? p = some current ∧ d.timestamps.get? p = some s
      ∧ (d.clear c).timestamps.get? p = some s ∧ d.Spared c p s
      ∧ ∀ x n, current' x = some n → current x = some n := by
  have hattrs := (clear_spec d c).2.2.2
  cases hcur : d.attributes.get? p with
  | none =>
      rw [clear_none hcur] at h
      cases h
  | some current =>
      rw [hcur] at hstored
      obtain ⟨s, ht⟩ := hstored rfl
      have hspared : d.Spared c p s := by
        intro hp hr
        rw [hattrs, if_pos hp, Clear.attributesAfter, ht] at h
        exact absurd ((if_pos hr).symm.trans h) (by simp)
      obtain ⟨htime, current'', hcur', hcases⟩ := clear_spares ht hcur hspared
      obtain rfl := Option.some.inj (hcur'.symm.trans h)
      refine ⟨current, s, rfl, ht, htime, hspared, fun x n hx => ?_⟩
      rcases hcases with rfl | ⟨-, rfl⟩
      · exact hx
      · cases hwanted : c.attributes.map withValue with
        | none =>
            rw [hwanted] at hx
            exact hx
        | some wanted =>
            rw [hwanted] at hx
            replace hx : (if p.length = c.path.length ∧ outdated wanted current x = true then none
              else current x) = some n := hx
            split_ifs at hx
            exact hx

end Clears

end DeviceData

end GenieAcs
