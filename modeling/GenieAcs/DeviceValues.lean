import GenieAcs.DeviceBatch

/-!
# Values that stand

A batch of values, one for each of some paths of which none lies above another,
leaves every one of them with its value, whatever was stored before. The one
exception is a value stamped with the time of the batch or later: it is held.
-/

namespace GenieAcs

namespace DeviceData

/-! ## Writing a value -/

section Values

variable {d : DeviceData} {path p : Path} {t : Timestamp} {a : Attributes} {v : AttrValue}
  {toClear : List Clear}

/-- `{ value: [timestamp, value] }`. -/
def valueAttributes (timestamp : Timestamp) (value : AttrValue) : Attributes :=
  Function.update (fun _ => none) .value (some (timestamp, value))

/-- The value of `p` that is stamped `t` or later. A write at `t` leaves it. -/
def heldValue (d : DeviceData) (t : Timestamp) (p : Path) : Option AttrValue :=
  match (d.currentAttributes p).bind (· .value) with
  | some (stamp, v) => if t ≤ stamp then some v else none
  | none => none

/-- `p` has the value `v`, and neither it nor the value is older than `t`. -/
def Stands (d : DeviceData) (t : Timestamp) (p : Path) (v : AttrValue) : Prop :=
  ∃ s current stamp, d.timestamps.get? p = some s ∧ t ≤ s ∧ d.attributes.get? p = some current
    ∧ current .value = some (stamp, v) ∧ t ≤ stamp

theorem valueAttributes_stamps : ∀ x n, valueAttributes t v x = some n → n.1 = t := by
  intro x n hx
  unfold valueAttributes at hx
  by_cases hxv : x = .value
  · subst hxv
    rw [Function.update_self] at hx
    obtain rfl := Option.some.inj hx
    rfl
  · rw [Function.update_of_ne hxv] at hx
    cases hx

/-- The object that `set` adds to a value does not take the value away. -/
theorem valueAttributes_value : withoutValue (withObject (valueAttributes t v)) .value
    = some (t, v) := by
  rcases withObject_cases (valueAttributes t v) with heq | ⟨stamp, w, -, -, heq⟩
  · rw [heq]
    rfl
  · rw [heq]
    rfl

/-- What `set` writes at a path without wildcards, whatever is there. -/
theorem written_stamped (hplain : star ∉ path) (ha : ∀ x n, a x = some n → n.1 = t) :
    let w := d.written path t (some a)
    let a' := withoutValue (withObject a)
    w.timestamp = t ∧ w.toClear = []
      ∧ (∃ s, w.data.timestamps.get? path = some s ∧ t ≤ s)
      ∧ w.data.attributes.get? path = some (joined (d.currentAttributes path) a')
      ∧ (w.changeFlags.testBit 0 = false → w.changeFlags.testBit AttrName.object.bit = true →
        ∃ n, a' .object = some n ∧ n.1 = t) := by
  intro w a'
  have hstamps := adjusted_stamps ha
  have hlatest : latest t a' = t := latest_eq fun x n hx => (hstamps x n hx).le
  have hcurrent : currentAttributes { d with paths := d.paths.add path } path
      = d.currentAttributes path := rfl
  have hw : w = { d with paths := d.paths.add path }.writeAttributes path t a' := by
    show DeviceData.write _ path t (some a) = _
    rw [write, if_neg (not_not.mpr (Path.wildcard_eq_zero.mpr hplain))]
  have hflags : ∀ cur, (AttrName.flags (changed cur a')).testBit AttrName.object.bit = true →
      ∃ n, a' .object = some n ∧ n.1 = t := by
    intro cur hbit
    rw [AttrName.testBit_flags, changed] at hbit
    cases hobj : a' .object with
    | none =>
        rw [hobj] at hbit
        cases hbit
    | some n => exact ⟨n, rfl, hstamps .object n hobj⟩
  have hone : (1 : Nat).testBit 0 ≠ false := by
    rw [testBit_one]
    exact Bool.noConfusion
  rw [hw, writeAttributes, hcurrent]
  by_cases hraise : isNewer t (d.timestamps.get? path) = true
  · cases d.currentAttributes path with
    | none =>
        simp only [if_pos hraise]
        exact ⟨trivial, trivial, ⟨t, InsMap.get?_set_self _ _ _, le_rfl⟩,
          InsMap.get?_set_self _ _ _, fun h => absurd h hone⟩
    | some cur =>
        simp only [hlatest, if_pos hraise]
        exact ⟨trivial, trivial, ⟨t, InsMap.get?_set_self _ _ _, le_rfl⟩,
          InsMap.get?_set_self _ _ _, fun _ => hflags cur⟩
  · have hlater : ∃ s, d.timestamps.get? path = some s ∧ t ≤ s := by
      rw [isNewer_iff] at hraise
      push Not at hraise
      exact hraise
    cases d.currentAttributes path with
    | none =>
        simp only [if_neg hraise]
        exact ⟨trivial, trivial, hlater, InsMap.get?_set_self _ _ _, fun h => absurd h hone⟩
    | some cur =>
        simp only [hlatest, if_neg hraise]
        exact ⟨trivial, trivial, hlater, InsMap.get?_set_self _ _ _, fun _ => hflags cur⟩

/-- A call of `set` with attributes of its own time only asks for clears of
that time. -/
theorem set_shaped (hplain : star ∉ path) (ha : ∀ x n, a x = some n → n.1 = t) :
    ∀ c ∈ (d.set path t (some a) toClear).2, c ∈ toClear ∨ Shaped t c := by
  induction path using List.reverseRecOn generalizing d a with
  | nil =>
      obtain ⟨hstamp, hnone, -, -, hflags⟩ := @written_stamped d [] t a hplain ha
      rw [set_done (by simp), hstamp, hnone, List.append_nil]
      exact (announce_clears _ hplain hflags).1
  | append_singleton up f ih =>
      obtain ⟨hstamp, hnone, -, -, hflags⟩ := @written_stamped d (up ++ [f]) t a hplain ha
      have hup : star ∉ up := fun h => hplain (List.mem_append_left _ h)
      by_cases h : (d.written (up ++ [f]) t (some a)).raised = true ∧ 1 < (up ++ [f]).length
      · rw [set_raised h, hstamp, List.dropLast_concat]
        intro c hc
        rcases (announce_clears _ hplain hflags).1 c hc with hc | hc
        · exact ih hup parentAttributes_stamps c hc
        · exact Or.inr hc
      · rw [set_done h, hstamp, hnone, List.append_nil]
        exact (announce_clears _ hplain hflags).1

/-- After a call of `set` with a value the path has that value, or the one it
held. -/
theorem set_stands (hplain : star ∉ path) :
    (d.set path t (some (valueAttributes t v)) toClear).1.Stands t path
      ((d.heldValue t path).getD v) := by
  obtain ⟨hstamp, -, ⟨s, hs, hle⟩, hattrs, -⟩ :=
    @written_stamped d path t (valueAttributes t v) hplain valueAttributes_stamps
  have hwritten : (d.written path t (some (valueAttributes t v))).data.Stands t path
      ((d.heldValue t path).getD v) := by
    have hvalue : ∃ stamp, joined (d.currentAttributes path)
        (withoutValue (withObject (valueAttributes t v))) .value
          = some (stamp, (d.heldValue t path).getD v) ∧ t ≤ stamp := by
      rw [heldValue]
      cases d.currentAttributes path with
      | none => exact ⟨t, valueAttributes_value, le_rfl⟩
      | some cur =>
          show ∃ stamp, merge cur _ .value = _ ∧ _
          rw [merge, valueAttributes_value, Option.bind_some]
          cases cur .value with
          | none => exact ⟨t, rfl, le_rfl⟩
          | some n =>
              obtain ⟨stamp, w⟩ := n
              by_cases h : t ≤ stamp
              · exact ⟨stamp, by simp [h], h⟩
              · exact ⟨t, by simp [h], le_rfl⟩
    obtain ⟨stamp, hval, hstamp'⟩ := hvalue
    exact ⟨s, _, stamp, hs, hle, hattrs, hval, hstamp'⟩
  have hlast : ∀ (d' : DeviceData) (clears : List Clear),
      let w := d.written path t (some (valueAttributes t v))
      d'.timestamps.get? path = w.data.timestamps.get? path →
      d'.attributes.get? path = w.data.attributes.get? path → ∀ flags, (announce d' path t (some (valueAttributes t v)) flags clears).1.Stands t path
        ((d.heldValue t path).getD v) := by
    intro d' clears w htimes hall flags
    obtain ⟨-, -, htimes', hall', -⟩ :=
      announce_frame d' path t (some (valueAttributes t v)) flags clears
    rw [Stands, htimes', hall', htimes, hall]
    exact hwritten
  by_cases h : (d.written path t (some (valueAttributes t v))).raised = true ∧ 1 < path.length
  · rw [set_raised h, hstamp]
    have hnot : ¬ path <+: path.dropLast := by
      intro hpre
      have hlen := hpre.length_le
      rw [List.length_dropLast] at hlen
      omega
    obtain ⟨htimes, hall⟩ := set_frame (d.written path t (some (valueAttributes t v))).data
      path.dropLast t (some (parentAttributes t)) toClear hnot
    exact hlast _ _ htimes hall _
  · rw [set_done h, hstamp]
    exact hlast _ _ rfl rfl _

/-! ## Clearing around a value -/

theorem Stands.after_clear {c : Clear} (hpos : 0 < t) (hc : Shaped t c) (h : d.Stands t p v) :
    (d.clear c).Stands t p v := by
  obtain ⟨s, current, stamp, hs, hle, hcur, hval, hstamp⟩ := h
  have hspared : d.Spared c p s := fun _ hr =>
    absurd (hc.removes_lt hpos (lt_of_lt_of_le hpos hle) hr) (not_lt.mpr hle)
  obtain ⟨htime, current', hcur', hcases⟩ := clear_spares hs hcur hspared
  refine ⟨s, current', stamp, htime, hle, hcur', ?_, hstamp⟩
  rcases hcases with rfl | ⟨-, rfl⟩
  · exact hval
  · rcases hc with ⟨-, hnone⟩ | ⟨-, hsome, -⟩
    · rw [hnone]
      exact hval
    · have hvalue : withValue (Function.update (fun _ => none) .object (some t))
          = Function.update (Function.update (fun _ => none) .object (some t)) .value (some t) :=
        if_pos hpos.ne'
      rw [hsome, Option.map_some, hvalue]
      show (if _ then none else current .value) = _
      rw [if_neg, hval]
      rintro ⟨-, hout⟩
      rw [outdated, hval] at hout
      have hlt : stamp < t := by simpa [Function.update] using hout
      exact absurd hlt (not_lt.mpr hstamp)

theorem Stands.after_clears (hpos : 0 < t) {clears : List Clear} (hc : ∀ c ∈ clears, Shaped t c)
    (h : d.Stands t p v) : (clears.foldl clear d).Stands t p v := by
  induction clears generalizing d with
  | nil => exact h
  | cons c clears ih =>
      exact ih (fun c' h' => hc c' (List.mem_cons_of_mem _ h'))
        (h.after_clear hpos (hc c (List.mem_cons_self ..)))

/-- The value of a parameter. -/
def valueOf (d : DeviceData) (p : Path) : Option AttrValue :=
  ((d.attributes.get? p).bind (· .value)).map Prod.snd

theorem Stands.valueOf (h : d.Stands t p v) : d.valueOf p = some v := by
  obtain ⟨s, current, stamp, -, -, hcur, hval, -⟩ := h
  rw [DeviceData.valueOf, hcur, Option.bind_some, hval]
  rfl

/-! ## Batches of values -/

/-- Calls of `set` with one value each. -/
def valueBatch (timestamp : Timestamp) (values : List (Path × AttrValue)) : Batch :=
  ⟨timestamp, values.map fun e => (e.1, some (valueAttributes timestamp e.2))⟩

/-- The calls for paths of which none lies above another. -/
theorem values_stand {values : List (Path × AttrValue)} (hplain : ∀ e ∈ values, star ∉ e.1)
    (hapart : values.Pairwise fun e e' => ¬ e.1 <+: e'.1 ∧ ¬ e'.1 <+: e.1)
    (r : DeviceData × List Clear) (hr : ∀ c ∈ r.2, Shaped t c) :
    let r' := (values.map fun e => (e.1, some (valueAttributes t e.2))).foldl
      (fun r s => r.1.set s.1 t s.2 r.2) r
    (∀ c ∈ r'.2, Shaped t c)
      ∧ (∀ q, (∀ e ∈ values, ¬ q <+: e.1) → r'.1.timestamps.get? q = r.1.timestamps.get? q
        ∧ r'.1.attributes.get? q = r.1.attributes.get? q)
      ∧ ∀ e ∈ values, r'.1.Stands t e.1 ((r.1.heldValue t e.1).getD e.2) := by
  induction values generalizing r with
  | nil => exact ⟨hr, fun _ _ => ⟨rfl, rfl⟩, fun e he => nomatch he⟩
  | cons e values ih =>
      obtain ⟨hhead, htail⟩ := List.pairwise_cons.mp hapart
      have hplain' := hplain e (List.mem_cons_self ..)
      have hset : ∀ c ∈ (r.1.set e.1 t (some (valueAttributes t e.2)) r.2).2, Shaped t c := by
        intro c hc
        exact (set_shaped hplain' valueAttributes_stamps c hc).elim (hr c) id
      obtain ⟨hshaped, hframe, hstands⟩ := ih (fun e' h => hplain e' (List.mem_cons_of_mem _ h))
        htail (r.1.set e.1 t (some (valueAttributes t e.2)) r.2) hset
      refine ⟨hshaped, fun q hq => ?_, fun e' he' => ?_⟩
      · obtain ⟨htimes, hattrs⟩ := hframe q fun e' h => hq e' (List.mem_cons_of_mem _ h)
        obtain ⟨htimes', hattrs'⟩ := set_frame r.1 e.1 t (some (valueAttributes t e.2)) r.2
          (hq e (List.mem_cons_self ..))
        exact ⟨htimes.trans htimes', hattrs.trans hattrs'⟩
      · rcases List.mem_cons.mp he' with rfl | he'
        · obtain ⟨htimes, hattrs⟩ := hframe e'.1 fun e h => (hhead e h).1
          rw [Stands, List.map_cons, List.foldl_cons, htimes, hattrs]
          exact set_stands hplain'
        · have hsame : (r.1.set e.1 t (some (valueAttributes t e.2)) r.2).1.heldValue t e'.1
              = r.1.heldValue t e'.1 := by
            obtain ⟨htimes, hattrs⟩ := set_frame r.1 e.1 t (some (valueAttributes t e.2)) r.2
              (hhead e' he').2
            simp only [heldValue, currentAttributes, htimes, hattrs]
          have hlast := hstands e' he'
          rw [hsame] at hlast
          exact hlast

/-- A batch of values leaves each of its paths with its value, or with the one
it held. -/
theorem valueBatch_stands (d : DeviceData) {values : List (Path × AttrValue)} (hpos : 0 < t)
    (hplain : ∀ e ∈ values, star ∉ e.1)
    (hapart : values.Pairwise fun e e' => ¬ e.1 <+: e'.1 ∧ ¬ e'.1 <+: e.1) :
    ∀ e ∈ values, ((valueBatch t values).run d).valueOf e.1
      = some ((d.heldValue t e.1).getD e.2) := by
  intro e he
  obtain ⟨hshaped, -, hstands⟩ := values_stand hplain hapart (d, []) fun c hc => nomatch hc
  exact (Stands.after_clears hpos hshaped (hstands e he)).valueOf

end Values

end DeviceData

end GenieAcs
