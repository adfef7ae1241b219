import GenieAcs.DeviceValues

/-!
# Writing below objects

What `set` does above its path comes to nothing where there are objects already:
they stay objects, and nothing is cleared below them. So a value that is written
below objects leaves the other parameters there alone.
-/

namespace GenieAcs

namespace DeviceData

section Objects

variable {d : DeviceData} {path q : Path} {t : Timestamp} {a : Attributes} {toClear : List Clear}

/-- The path is known to be an object. -/
def IsObject (d : DeviceData) (q : Path) : Prop :=
  ∃ current stamp, d.currentAttributes q = some current ∧ current .object = some (stamp, .num 1)

theorem isObject_congr {d' : DeviceData}
    (htimes : d'.timestamps.get? q = d.timestamps.get? q)
    (hattrs : d'.attributes.get? q = d.attributes.get? q) : d'.IsObject q ↔ d.IsObject q := by
  rw [IsObject, IsObject, currentAttributes, currentAttributes, htimes, hattrs]

theorem currentAttributes_of {s : Timestamp} {current : Attributes}
    (htime : d.timestamps.get? q = some s) (hs : 0 < s) (hcur : d.attributes.get? q = some current) :
    d.currentAttributes q = some current := by
  rw [currentAttributes, htime]
  show (if s ≠ 0 then d.attributes.get? q else none) = some current
  rw [if_pos hs.ne', hcur]

/-! ## The way up -/

theorem written_flags (hplain : star ∉ path) {cur : Attributes}
    (hcur : d.currentAttributes path = some cur) :
    (d.written path t (some a)).changeFlags
      = AttrName.flags (changed cur (withoutValue (withObject a))) := by
  have hcur' : currentAttributes { d with paths := d.paths.add path } path = some cur := hcur
  have hw : d.written path t (some a)
      = { d with paths := d.paths.add path }.writeAttributes path t
        (withoutValue (withObject a)) := by
    show DeviceData.write _ path t (some a) = _
    rw [write, if_neg (not_not.mpr (Path.wildcard_eq_zero.mpr hplain))]
  rw [hw, writeAttributes, hcur']
  dsimp only
  split_ifs <;> rfl

theorem parent_object : withoutValue (withObject (parentAttributes t)) .object
    = some (t, .num 1) := by
  rw [withoutValue_object, withObject_of_not_shuts parentAttributes_opens]
  rfl

/-- To be an object is nothing new to an object. -/
theorem parent_quiet (hplain : star ∉ path) (h : d.IsObject path) :
    let w := d.written path t (some (parentAttributes t))
    w.changeFlags.testBit 0 = false ∧ w.changeFlags.testBit AttrName.object.bit = false := by
  intro w
  obtain ⟨cur, stamp, hcur, hobj⟩ := h
  have hflags : w.changeFlags = _ := written_flags hplain hcur
  rw [hflags]
  refine ⟨AttrName.testBit_flags_zero _, ?_⟩
  rw [AttrName.testBit_flags, changed, parent_object, hobj]
  simp [AttrValue.compareEquality]

theorem parent_isObject (hpos : 0 < t) (hplain : star ∉ path) (h : d.IsObject path) :
    (d.written path t (some (parentAttributes t))).data.IsObject path := by
  have hquiet := (parent_quiet (t := t) hplain h).2
  obtain ⟨cur, stamp, hcur, hobj⟩ := h
  obtain ⟨-, -, ⟨s, hs, hle⟩, hattrs, -⟩ :=
    @written_stamped d path t (parentAttributes t) hplain parentAttributes_stamps
  rw [hcur] at hattrs
  rw [written_flags hplain hcur] at hquiet
  rcases joined_kept (a := withoutValue (withObject (parentAttributes t))) hobj with
    ⟨stamp', hstamp'⟩ | ⟨-, hbit⟩
  · exact ⟨_, stamp', currentAttributes_of hs (lt_of_lt_of_le hpos hle) hattrs, hstamp'⟩
  · rw [hquiet] at hbit
    cases hbit

theorem announce_adds {flags : Nat} {c : Clear}
    (h : c ∈ (announce d path t (some a) flags toClear).2) :
    c ∈ toClear ∨ c.path = path
      ∧ (flags.testBit 0 = true ∨ flags.testBit AttrName.object.bit = true) := by
  unfold announce at h
  split_ifs at h with hzero hobject hany
  · rcases List.mem_append.mp h with hc | hc
    · exact Or.inl hc
    · exact Or.inr ⟨List.mem_singleton.mp hc ▸ rfl, Or.inl hzero⟩
  · rcases List.mem_append.mp h with hc | hc
    · exact Or.inl hc
    · exact Or.inr ⟨List.mem_singleton.mp hc ▸ rfl, Or.inr hobject⟩
  · exact Or.inl h
  · exact Or.inl h

theorem announce_isObject {flags : Nat} (h : d.IsObject q) :
    (announce d path t (some a) flags toClear).1.IsObject q := by
  obtain ⟨-, -, htimes, hattrs, -⟩ := announce_frame d path t (some a) flags toClear
  rwa [isObject_congr (congrArg (InsMap.get? · q) htimes) (congrArg (InsMap.get? · q) hattrs)]

theorem written_isObject (x : Option Attributes) (hq : q ≠ path) :
    (d.written path t x).data.IsObject q ↔ d.IsObject q := by
  obtain ⟨htimes, hattrs⟩ :=
    (write_frame { d with paths := d.paths.add path } path t x).2.2.2 q hq
  exact isObject_congr htimes hattrs

theorem prefix_ne {p up : Path} {f : JsString} (h : p <+: up) : p ≠ up ++ [f] := by
  rintro rfl
  have hlen := h.length_le
  rw [List.length_append, List.length_singleton] at hlen
  omega

/-- On its way up `set` asks for clears only where there was no object, and takes
no object away. -/
theorem setParent_objects (hpos : 0 < t) (hplain : star ∉ path) (hne : path ≠ []) :
    let r := d.set path t (some (parentAttributes t)) toClear
    (∀ c ∈ r.2, c ∈ toClear ∨ c.path ≠ [] ∧ c.path <+: path ∧ ¬ d.IsObject c.path)
      ∧ ∀ q, d.IsObject q → r.1.IsObject q := by
  induction path using List.reverseRecOn generalizing d with
  | nil => exact absurd rfl hne
  | append_singleton up f ih =>
      obtain ⟨hstamp, hnone, -, -, -⟩ :=
        @written_stamped d (up ++ [f]) t (parentAttributes t) hplain parentAttributes_stamps
      have hup : star ∉ up := fun h => hplain (List.mem_append_left _ h)
      have hwritten : ∀ q, d.IsObject q →
          (d.written (up ++ [f]) t (some (parentAttributes t))).data.IsObject q := by
        intro q hq
        by_cases heq : q = up ++ [f]
        · rw [heq] at hq ⊢
          exact parent_isObject hpos hplain hq
        · exact (written_isObject _ heq).mpr hq
      have hhere : ∀ c : Clear, c.path = up ++ [f] ∧
          ((d.written (up ++ [f]) t (some (parentAttributes t))).changeFlags.testBit 0 = true
            ∨ (d.written (up ++ [f]) t (some (parentAttributes t))).changeFlags.testBit
              AttrName.object.bit = true) →
          c.path ≠ [] ∧ c.path <+: up ++ [f] ∧ ¬ d.IsObject c.path := by
        rintro c ⟨hc, hbits⟩
        rw [hc]
        refine ⟨hne, List.prefix_rfl, fun hobj => ?_⟩
        obtain ⟨hzero, hobject⟩ := parent_quiet (t := t) hplain hobj
        rw [hzero, hobject] at hbits
        exact hbits.elim Bool.noConfusion Bool.noConfusion
      by_cases h : (d.written (up ++ [f]) t (some (parentAttributes t))).raised = true
          ∧ 1 < (up ++ [f]).length
      · have hupne : up ≠ [] := by
          rintro rfl
          exact absurd h.2 (by simp)
        rw [set_raised h, hstamp, List.dropLast_concat]
        obtain ⟨hclears, hobjects⟩ := ih (d := (d.written (up ++ [f]) t
          (some (parentAttributes t))).data) hup hupne
        refine ⟨fun c hc => ?_, fun q hq => announce_isObject (hobjects q (hwritten q hq))⟩
        rcases announce_adds hc with hc | hc
        · refine (hclears c hc).imp id fun ⟨hcne, hprefix, hobj⟩ => ⟨hcne, ?_, ?_⟩
          · exact hprefix.trans (List.prefix_append _ _)
          · rwa [written_isObject _ (prefix_ne hprefix)] at hobj
        · exact Or.inr (hhere c hc)
      · rw [set_done h, hstamp, hnone, List.append_nil]
        refine ⟨fun c hc => ?_, fun q hq => announce_isObject (hwritten q hq)⟩
        exact (announce_adds hc).imp id (hhere c)

theorem set_objects (hpos : 0 < t) (hplain : star ∉ path) (ha : ∀ x n, a x = some n → n.1 = t) :
    let r := d.set path t (some a) toClear
    (∀ c ∈ r.2, c ∈ toClear ∨ c.path = path ∨ Above c.path path ∧ ¬ d.IsObject c.path)
      ∧ ∀ q, q ≠ path → d.IsObject q → r.1.IsObject q := by
  obtain ⟨hstamp, hnone, -, -, -⟩ := @written_stamped d path t a hplain ha
  by_cases h : (d.written path t (some a)).raised = true ∧ 1 < path.length
  · have habove := above_dropLast h.2
    rw [set_raised h, hstamp]
    obtain ⟨hclears, hobjects⟩ := @setParent_objects (d.written path t (some a)).data _ t toClear
      hpos (fun hs => hplain (habove.2.1.subset hs)) habove.1
    refine ⟨fun c hc => ?_, fun q hq hobj =>
      announce_isObject (hobjects q ((written_isObject _ hq).mpr hobj))⟩
    rcases announce_adds hc with hc | ⟨hc, -⟩
    · refine (hclears c hc).imp id fun ⟨hcne, hprefix, hobj⟩ => Or.inr ?_
      have hup : Above c.path path := by
        refine ⟨hcne, hprefix.trans habove.2.1, fun heq => ?_⟩
        have hlen := hprefix.length_le
        have hlt := habove.length_lt
        rw [heq] at hlen
        omega
      exact ⟨hup, by rwa [written_isObject _ hup.2.2] at hobj⟩
    · exact Or.inr (Or.inl hc)
  · rw [set_done h, hstamp, hnone, List.append_nil]
    refine ⟨fun c hc => ?_, fun q hq hobj =>
      announce_isObject ((written_isObject _ hq).mpr hobj)⟩
    exact (announce_adds hc).imp id fun hc => Or.inl hc.1

/-! ## Clearing elsewhere -/

/-- A clear without wildcards is about what is below its path. -/
theorem clear_outside {c : Clear} (hc : star ∉ c.path) (hplain : star ∉ q)
    (hq : ¬ c.path <+: q) :
    (d.clear c).timestamps.get? q = d.timestamps.get? q
      ∧ (d.clear c).attributes.get? q = d.attributes.get? q := by
  have hfound : q ∉ d.found c := by
    intro hin
    obtain ⟨-, hlen, -, hagrees⟩ := PathSet.mem_find.mp hin
    refine hq (List.prefix_iff_eq_take.mpr (List.ext_getElem? fun i => ?_))
    rw [List.getElem?_take]
    by_cases hi : i < c.path.length
    · have hat : c.path[i]? = some (c.path.getD i []) := by
        rw [List.getD_eq_getElem?_getD, List.getElem?_eq_getElem hi]
        rfl
      rw [if_pos hi]
      rcases hagrees i hi with ⟨htest, -⟩ | heq | ⟨-, -, hstar⟩
      · rw [Path.test_of_plain hc] at htest
        cases htest
      · exact hat.trans heq.symm
      · exact absurd (List.mem_iff_getElem?.mpr ⟨i, hstar⟩) hplain
    · rw [if_neg hi, List.getElem?_eq_none (by omega)]
  obtain ⟨-, -, htimes, hattrs⟩ := clear_spec d c
  rw [htimes, hattrs, if_neg hfound, if_neg hfound]
  exact ⟨rfl, rfl⟩

theorem clears_outside {clears : List Clear} (hplain : star ∉ q)
    (h : ∀ c ∈ clears, star ∉ c.path ∧ ¬ c.path <+: q) :
    (clears.foldl clear d).timestamps.get? q = d.timestamps.get? q
      ∧ (clears.foldl clear d).attributes.get? q = d.attributes.get? q := by
  induction clears generalizing d with
  | nil => exact ⟨rfl, rfl⟩
  | cons c clears ih =>
      obtain ⟨hc, hq⟩ := h c (List.mem_cons_self ..)
      obtain ⟨htimes, hattrs⟩ := clear_outside (d := d) hc hplain hq
      obtain ⟨htimes', hattrs'⟩ := ih (d := d.clear c)
        fun c' h' => h c' (List.mem_cons_of_mem _ h')
      exact ⟨htimes'.trans htimes, hattrs'.trans hattrs⟩

/-- A clear brings no value. -/
theorem clear_heldValue {c : Clear} {v : AttrValue} (h : (d.clear c).heldValue t q = some v) :
    d.heldValue t q = some v := by
  rw [heldValue] at h
  cases hcur : (d.clear c).currentAttributes q with
  | none =>
      rw [hcur] at h
      cases h
  | some current =>
      rw [hcur, Option.bind_some] at h
      have hattrs := currentAttributes_eq_some hcur
      rw [currentAttributes] at hcur
      split at hcur
      · rename_i s hs
        obtain ⟨hs', -⟩ := clear_timestamp hs
        split_ifs at hcur with hzero
        obtain ⟨before, -, hbefore, -, -, -, hall⟩ := clear_survivor (fun _ => ⟨s, hs'⟩) hattrs
        have hcur' : d.currentAttributes q = some before := by
          rw [currentAttributes, hs']
          exact (if_pos hzero).trans hbefore
        rw [heldValue, hcur', Option.bind_some]
        cases hval : current .value with
        | none =>
            rw [hval] at h
            cases h
        | some n =>
            rw [hall .value n hval]
            rw [hval] at h
            exact h
      · cases hcur

theorem clears_heldValue {clears : List Clear} {v : AttrValue}
    (h : (clears.foldl clear d).heldValue t q = some v) : d.heldValue t q = some v := by
  induction clears generalizing d with
  | nil => exact h
  | cons c clears ih => exact clear_heldValue (ih h)

theorem heldValue_eq_some {v : AttrValue} : d.heldValue t q = some v
    ↔ ∃ current stamp, d.currentAttributes q = some current
      ∧ current .value = some (stamp, v) ∧ t ≤ stamp := by
  rw [heldValue]
  cases d.currentAttributes q with
  | none => simp
  | some current =>
      rw [Option.bind_some]
      cases hval : current .value with
      | none => simp [hval]
      | some n =>
          obtain ⟨stamp, w⟩ := n
          by_cases hle : t ≤ stamp
          · simp only [if_pos hle, Option.some.injEq]
            constructor
            · rintro rfl
              exact ⟨current, stamp, rfl, hval, hle⟩
            · rintro ⟨_, _, rfl, heq, -⟩
              exact (Prod.mk.inj (Option.some.inj (hval.symm.trans heq))).2
          · simp only [if_neg hle]
            refine iff_of_false (by simp) ?_
            rintro ⟨_, _, hcur, heq, hle'⟩
            obtain rfl := Option.some.inj hcur
            rw [hval] at heq
            obtain ⟨rfl, -⟩ := Prod.mk.inj (Option.some.inj heq)
            exact hle hle'

/-- What stands is held. -/
theorem Stands.held {v : AttrValue} (hpos : 0 < t) (h : d.Stands t q v) :
    d.heldValue t q = some v := by
  obtain ⟨s, current, stamp, hs, hle, hcur, hval, hstamp⟩ := h
  exact heldValue_eq_some.mpr
    ⟨current, stamp, currentAttributes_of hs (lt_of_lt_of_le hpos hle) hcur, hval, hstamp⟩

/-! ## One value -/

variable {v w : AttrValue}

/-- A write of one value, with its clears. -/
def setValue (d : DeviceData) (path : Path) (t : Timestamp) (v : AttrValue) : DeviceData :=
  (valueBatch t [(path, v)]).run d

theorem setValue_clears (hpos : 0 < t) (hplain : star ∉ path) :
    ∀ c ∈ (d.set path t (some (valueAttributes t v)) []).2, star ∉ c.path ∧ Shaped t c
      ∧ (c.path = path ∨ Above c.path path ∧ ¬ d.IsObject c.path) := by
  intro c hc
  have hcase := ((set_objects hpos hplain valueAttributes_stamps).1 c hc).resolve_left
    List.not_mem_nil
  refine ⟨fun hs => ?_, ?_, hcase⟩
  · rcases hcase with heq | ⟨hup, -⟩
    · exact hplain (heq ▸ hs)
    · exact hplain (hup.2.1.subset hs)
  · exact (set_shaped hplain valueAttributes_stamps c hc).resolve_left List.not_mem_nil

theorem setValue_stands (hpos : 0 < t) (hplain : star ∉ path) :
    (d.setValue path t v).Stands t path ((d.heldValue t path).getD v) :=
  Stands.after_clears hpos (fun c hc => (setValue_clears hpos hplain c hc).2.1)
    (set_stands hplain)

/-- Below objects a write stays away from what is beside its path. -/
theorem setValue_outside (hpos : 0 < t) (hplain : star ∉ path) (hq : star ∉ q)
    (hqp : ¬ q <+: path) (hpq : ¬ path <+: q)
    (hobjects : ∀ p, Above p path → p <+: q → d.IsObject p) :
    (d.setValue path t v).timestamps.get? q = d.timestamps.get? q
      ∧ (d.setValue path t v).attributes.get? q = d.attributes.get? q := by
  obtain ⟨htimes, hattrs⟩ := set_frame d path t (some (valueAttributes t v)) [] hqp
  obtain ⟨htimes', hattrs'⟩ := clears_outside hq fun c hc => by
    obtain ⟨hstar, -, hcase⟩ := setValue_clears hpos hplain c hc
    refine ⟨hstar, fun hprefix => ?_⟩
    rcases hcase with heq | ⟨hup, hobj⟩
    · exact hpq (heq ▸ hprefix)
    · exact hobj (hobjects _ hup hprefix)
  exact ⟨htimes'.trans htimes, hattrs'.trans hattrs⟩

theorem setValue_isObject (hpos : 0 < t) (hplain : star ∉ path) (hq : star ∉ q)
    (hpq : ¬ path <+: q) (hobjects : ∀ p, Above p path → p <+: q → d.IsObject p)
    (h : d.IsObject q) : (d.setValue path t v).IsObject q := by
  have hset := (@set_objects d path t _ [] hpos hplain (valueAttributes_stamps (v := v))).2 q
    (fun heq => hpq (heq ▸ List.prefix_rfl)) h
  obtain ⟨htimes, hattrs⟩ := clears_outside hq fun c hc => by
    obtain ⟨hstar, -, hcase⟩ := setValue_clears (v := v) hpos hplain c hc
    refine ⟨hstar, fun hprefix => ?_⟩
    rcases hcase with heq | ⟨hup, hobj⟩
    · exact hpq (heq ▸ hprefix)
    · exact hobj (hobjects _ hup hprefix)
  exact (isObject_congr htimes hattrs).mpr hset

/-- A value that stands is left alone by a write elsewhere. -/
theorem Stands.after_setValue (hpos : 0 < t) (hplain : star ∉ path) (hqp : ¬ q <+: path)
    (h : d.Stands t q w) : (d.setValue path t v).Stands t q w := by
  obtain ⟨htimes, hattrs⟩ := set_frame d path t (some (valueAttributes t v)) [] hqp
  refine Stands.after_clears hpos (fun c hc => (setValue_clears hpos hplain c hc).2.1) ?_
  show (d.set path t (some (valueAttributes t v)) []).1.Stands t q w
  rw [Stands, htimes, hattrs]
  exact h

theorem setValue_heldValue (hqp : ¬ q <+: path)
    (h : (d.setValue path t v).heldValue t q = some w) : d.heldValue t q = some w := by
  obtain ⟨htimes, hattrs⟩ := set_frame d path t (some (valueAttributes t v)) [] hqp
  have hset : (d.set path t (some (valueAttributes t v)) []).1.heldValue t q = some w :=
    clears_heldValue h
  rwa [heldValue, currentAttributes, htimes, hattrs] at hset

end Objects

end DeviceData

end GenieAcs
