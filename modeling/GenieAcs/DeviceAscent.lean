import GenieAcs.DeviceBatch

/-!
# The calls of a batch

Each call of `set` keeps `Mid`: with attributes by induction on the length of
the path, as it goes up until it meets a path of its own time, without
attributes because it leaves nothing of the path.
-/

namespace GenieAcs

namespace DeviceData

section Step

variable {b : Batch} {L : Nat} {X : Path → Prop} {P : Clear → Prop} {d : DeviceData} {path : Path}
  {a : Attributes} {toClear : List Clear}

/-- What a call of `set` with attributes leaves: `r` is its result. -/
structure Ascended (b : Batch) (L : Nat) (X : Path → Prop) (P : Clear → Prop) (path : Path) (a : Attributes)
    (toClear : List Clear) (r : DeviceData × List Clear) : Prop where
  clears : ∀ c ∈ r.2, c ∈ toClear ∨ Shaped b.timestamp c
  mid : Mid b L X (fun c => P c ∨ (c ∈ r.2 ∧ Shaped b.timestamp c)) r.1
  above : ∀ q, Above q path → r.1.Fresh b.timestamp q
  stored : (r.1.attributes.get? path).isSome = true
  here : a = parentAttributes b.timestamp → b.Opens path → r.1.Fresh b.timestamp path

/-- After the write and what it does above the path, its flags are announced. -/
theorem Ascended.announce {above : DeviceData × List Clear} {flags : Nat}
    (h : Ascended b L X (fun c => P c
      ∨ ((flags.testBit 0 = true ∨ flags.testBit AttrName.object.bit = true)
        ∧ c.path = path ∧ Shaped b.timestamp c)) path a toClear above)
    (hplain : star ∉ path) (hshaped : ∀ c, P c → Shaped b.timestamp c)
    (ha : flags.testBit 0 = false → flags.testBit AttrName.object.bit = true →
      ∃ n, withoutValue (withObject a) .object = some n ∧ n.1 = b.timestamp) :
    Ascended b L X P path a toClear
      (DeviceData.announce above.1 path b.timestamp (some a) flags above.2) := by
  obtain ⟨hpaths, -, htimes, hattrs, -, hkeep⟩ :=
    announce_frame above.1 path b.timestamp (some a) flags above.2
  obtain ⟨hclears, hown⟩ := @announce_clears path a above.2 above.1 b.timestamp flags hplain ha
  have hfresh : ∀ q, above.1.Fresh b.timestamp q →
      (DeviceData.announce above.1 path b.timestamp (some a) flags above.2).1.Fresh
        b.timestamp q := by
    intro q hq
    rw [Fresh, hattrs, htimes]
    exact hq
  constructor
  case clears =>
    intro c hc
    rcases hclears c hc with hc | hc
    · exact h.clears c hc
    · exact Or.inr hc
  case mid =>
    refine (h.mid.congr hpaths htimes hattrs).mono ?_ ?_
    · rintro c ((hc | ⟨hflags, hpath, -⟩) | ⟨hc, hc'⟩)
      · exact ⟨c, Or.inl hc, rfl⟩
      · obtain ⟨c', hc', hpath', hshape⟩ := hown hflags
        exact ⟨c', Or.inr ⟨hc', hshape⟩, hpath'.trans hpath.symm⟩
      · exact ⟨c, Or.inr ⟨hkeep c hc, hc'⟩, rfl⟩
    · rintro c (hc | ⟨-, hc⟩)
      · exact hshaped c hc
      · exact hc
  case above => exact fun q hq => hfresh q (h.above q hq)
  case stored =>
    rw [hattrs]
    exact h.stored
  case here => exact fun heq hopens => hfresh path (h.here heq hopens)

theorem touches_dropLast (h : b.Touches path) (hlen : 1 < path.length) :
    b.Opens path.dropLast := by
  rcases h with hsets | ⟨p, hp, hup⟩
  · exact ⟨path, hsets, above_dropLast hlen⟩
  · exact ⟨p, hp, (above_dropLast hlen).trans hup.2.1⟩

theorem fresh_under {D : DeviceData} {t : Timestamp} {q : Path}
    (hparent : D.Fresh t path.dropLast) (habove : ∀ q, Above q path.dropLast → D.Fresh t q)
    (hq : Above q path) : D.Fresh t q := by
  rcases hq.cases.2 with rfl | hup
  · exact hparent
  · exact habove q hup

/-- A path that has arrived need not be excepted any more. -/
theorem Mid.arrive {X' : Path → Prop} (h : Mid b L X P d)
    (hX : ∀ p, X p → X' p ∨ ∀ q, Above q p → d.Fresh b.timestamp q) : Mid b L X' P d where
  plain := h.plain
  times := h.times
  stamped := h.stamped
  touched := h.touched
  present := h.present
  opened := h.opened
  fresh p hp hattrs ht q hq := by
    by_cases hin : X p
    · exact (hX p hin).resolve_left hp q hq
    · exact h.fresh p hin hattrs ht q hq
  old := h.old
  shaped := h.shaped

/-- The parent of a written path is fresh as soon as it is written itself. -/
theorem fresh_written (hmid : Mid b L X P d) (hplain : star ∉ path) (hopens : b.Opens path) :
    (d.written path b.timestamp (some (parentAttributes b.timestamp))).data.Fresh
      b.timestamp path := by
  obtain ⟨-, -, -, htime, hattrs, -⟩ :=
    written_attributes hplain (hmid.times path) (hmid.stored path) parentAttributes_stamps
  refine ⟨_, hattrs, htime, joined_parent fun cur stamp v hcur hobj => ?_⟩
  obtain ⟨s, hs, hstamps⟩ := hmid.stamped path cur hcur
  refine ⟨(hstamps _ _ hobj).trans (hmid.times path s hs).2, ?_⟩
  rintro rfl
  exact hmid.opened path cur v hopens hcur hobj

/-- A call of `set` with attributes, by induction on the length of the path. -/
theorem set_ascends (hmid : Mid b L X P d) (hpos : 0 < b.timestamp) (hplain : star ∉ path)
    (hlen : path.length ≤ L) (htouch : b.Touches path) (hX : ∀ q, q <+: path → ¬ X q)
    (ha : ∀ x n, a x = some n → n.1 = b.timestamp) (hopen : b.Opens path → ¬ Shuts a) :
    Ascended b L X P path a toClear (d.set path b.timestamp (some a) toClear) := by
  induction hn : path.length using Nat.strong_induction_on generalizing d X P path a with
  | _ n ih =>
    obtain ⟨hstamp, hnone, hraised, htime, hattrs, hflags⟩ :=
      written_attributes hplain (hmid.times path) (hmid.stored path) ha
    have hpresent : ((d.written path b.timestamp (some a)).data.attributes.get? path).isSome
        = true := by
      rw [hattrs]
      rfl
    have hgiven : (d.written path b.timestamp (some a)).changeFlags.testBit 0 = false →
        (d.written path b.timestamp (some a)).changeFlags.testBit AttrName.object.bit = true →
        ∃ n, withoutValue (withObject a) .object = some n ∧ n.1 = b.timestamp := by
      intro hzero hbit
      rw [hflags] at hzero hbit
      cases hcur : d.attributes.get? path with
      | none =>
          rw [hcur] at hzero
          exact absurd testBit_one (Bool.not_eq_true _ ▸ hzero)
      | some cur =>
          rw [hcur] at hbit
          replace hbit := (AttrName.testBit_flags _ _).symm.trans hbit
          cases hnew : withoutValue (withObject a) .object with
          | none =>
              rw [changed, hnew] at hbit
              cases hbit
          | some n => exact ⟨n, rfl, adjusted_stamps ha _ n hnew⟩
    have hfresh : a = parentAttributes b.timestamp → b.Opens path →
        (d.written path b.timestamp (some a)).data.Fresh b.timestamp path := by
      rintro rfl hopens
      exact fresh_written hmid hplain hopens
    have hmid' : Mid b L X (fun c => P c
        ∨ (((d.written path b.timestamp (some a)).changeFlags.testBit 0 = true
            ∨ (d.written path b.timestamp (some a)).changeFlags.testBit AttrName.object.bit = true)
          ∧ c.path = path ∧ Shaped b.timestamp c)) d :=
      hmid.mono (fun c hc => ⟨c, Or.inl hc, rfl⟩) fun c hc => hc.elim (hmid.shaped c) fun h => h.2.2
    have hwritten := mid_written hmid' hpos hplain hlen htouch ha hopen fun hflagged =>
      ⟨⟨path, b.timestamp, none, 0⟩, Or.inr ⟨hflagged, rfl, Or.inl ⟨rfl, rfl⟩⟩, rfl⟩
    by_cases hup : (d.written path b.timestamp (some a)).raised = true ∧ 1 < path.length
    · rw [set_raised hup, hstamp]
      have hlast := touches_dropLast htouch hup.2
      have hshorter : path.dropLast.length < n := by
        rw [List.length_dropLast]
        omega
      have habove := ih _ hshorter hwritten (fun h => hplain (List.mem_of_mem_dropLast h))
        (by omega) (Or.inr hlast)
        (by
          rintro q hq (hx | ⟨rfl, -⟩)
          · exact hX q (hq.trans (List.dropLast_prefix path)) hx
          · have hle := hq.length_le
            omega)
        parentAttributes_stamps (fun _ => parentAttributes_opens) rfl
      have hparent := habove.here rfl hlast
      have hnot : ¬ path <+: path.dropLast := by
        intro h
        have hle := h.length_le
        omega
      obtain ⟨hkeep, hkeep'⟩ := set_frame (d.written path b.timestamp (some a)).data
        path.dropLast b.timestamp (some (parentAttributes b.timestamp)) toClear hnot
      apply Ascended.announce _ hplain hmid.shaped hgiven
      constructor
      case clears => exact habove.clears
      case mid =>
        apply habove.mid.arrive
        rintro p (hx | ⟨rfl, -⟩)
        · exact Or.inl hx
        · exact Or.inr fun q hq => fresh_under hparent habove.above hq
      case above => exact fun q hq => fresh_under hparent habove.above hq
      case stored =>
        rw [hkeep']
        exact hpresent
      case here =>
        intro heq hopens
        obtain ⟨cur, hcur, htq, hobj⟩ := hfresh heq hopens
        exact ⟨cur, hkeep'.trans hcur, hkeep.trans htq, hobj⟩
    · rw [set_done hup, hstamp, hnone, List.append_nil]
      have hnever : ∀ q, Above q path → d.timestamps.get? path = some b.timestamp := by
        intro q hq
        by_contra hne
        exact hup ⟨hraised.mpr hne, hq.cases.1⟩
      apply @Ascended.announce b L X P path a toClear (_, toClear) _ _ hplain hmid.shaped hgiven
      constructor
      case clears => exact fun c hc => Or.inl hc
      case mid =>
        refine Mid.mono (Mid.arrive hwritten ?_) (fun c hc => ⟨c, Or.inl hc, rfl⟩) ?_
        · rintro p (hx | ⟨rfl, hne⟩)
          · exact Or.inl hx
          · exact Or.inr fun q hq => absurd (hnever q hq) hne
        · rintro c (hc | ⟨-, hc⟩)
          · exact hmid'.shaped c hc
          · exact hc
      case above =>
        intro q hq
        refine hwritten.fresh path ?_ hpresent htime q hq
        rintro (hx | ⟨-, hne⟩)
        · exact hX path List.prefix_rfl hx
        · exact hne (hnever q hq)
      case stored => exact hpresent
      case here => exact hfresh

theorem Opens.touches {q p : Path} (hp : b.Touches p) (hq : Above q p) : b.Opens q := by
  rcases hp with hsets | ⟨p', hp', hup⟩
  · exact ⟨p, hsets, hq⟩
  · exact ⟨p', hp', hq.trans hup.2.1⟩

theorem touches_plain {p : Path} (h : b.Touches p) : star ∉ p := by
  rcases h with hsets | ⟨p', hp', hup⟩
  · exact hsets.1
  · exact fun hstar => hp'.1 (hup.2.1.subset hstar)

/-- Nothing is left of a path that the batch does not write. -/
theorem mid_vacant {d' : DeviceData} (hmid : Mid b L X P d) (hfree : ¬ b.Touches path)
    (hpaths : ∀ p ∈ d.paths, p ∈ d'.paths)
    (htimes : ∀ p, p ≠ path → d'.timestamps.get? p = d.timestamps.get? p)
    (hattrs : ∀ p, d'.attributes.get? p = if p = path then none else d.attributes.get? p)
    (hhere : ∀ t, d'.timestamps.get? path = some t → 0 < t ∧ t ≤ b.timestamp)
    (hP : (d.attributes.get? path).isSome = true → ∃ c, P c ∧ c.path = path) :
    Mid b L X P d' := by
  have hne : ∀ p, (d'.attributes.get? p).isSome = true → p ≠ path := by
    rintro p hp rfl
    rw [hattrs, if_pos rfl] at hp
    cases hp
  have hsame : ∀ p, p ≠ path → d'.attributes.get? p = d.attributes.get? p := fun p hp => by
    rw [hattrs, if_neg hp]
  constructor
  case plain =>
    intro p hp
    rw [hsame p (hne p hp)] at hp
    obtain ⟨h1, h2, h3⟩ := hmid.plain p hp
    exact ⟨h1, hpaths p h2, h3⟩
  case times =>
    intro p t ht
    by_cases hpp : p = path
    · exact hhere t (hpp ▸ ht)
    · exact hmid.times p t ((htimes p hpp).symm.trans ht)
  case stamped =>
    intro p current hcur
    have hpp := hne p (by rw [hcur]; rfl)
    rw [hsame p hpp] at hcur
    rw [htimes p hpp]
    exact hmid.stamped p current hcur
  case touched =>
    intro p hp ht
    have hpp := hne p hp
    exact hmid.touched p (hsame p hpp ▸ hp) ((htimes p hpp).symm.trans ht)
  case present =>
    intro p hp ht
    have hpp : p ≠ path := by
      rintro rfl
      exact hfree hp
    rw [hsame p hpp]
    exact hmid.present p hp ((htimes p hpp).symm.trans ht)
  case opened =>
    intro q current v hq hcur hv
    have hqp := hne q (by rw [hcur]; rfl)
    exact hmid.opened q current v hq ((hsame q hqp).symm.trans hcur) hv
  case fresh =>
    intro p hX hp ht q hq
    have hpp := hne p hp
    have hp' : (d.attributes.get? p).isSome = true := hsame p hpp ▸ hp
    have ht' := (htimes p hpp).symm.trans ht
    obtain ⟨cur, hcur, htq, hobj⟩ := hmid.fresh p hX hp' ht' q hq
    have hqp : q ≠ path := by
      rintro rfl
      exact hfree (Or.inr (Opens.touches (hmid.touched p hp' ht') hq))
    exact ⟨cur, (hsame q hqp).trans hcur, (htimes q hqp).trans htq, hobj⟩
  case old =>
    intro p t hp ht hlt q hq
    have hpp := hne p hp
    rcases hmid.old p t (hsame p hpp ▸ hp) ((htimes p hpp).symm.trans ht) hlt q hq
      with ⟨cur, time, stamp, hcur, htq, hle, hobj⟩ | hclear
    · by_cases hqp : q = path
      · subst hqp
        exact Or.inr (hP (by rw [hcur]; rfl))
      · exact Or.inl ⟨cur, time, stamp, (hsame q hqp).trans hcur, (htimes q hqp).trans htq,
          hle, hobj⟩
    · exact Or.inr hclear
  case shaped => exact hmid.shaped

theorem mid_grow {toClear' : List Clear} (h : Mid b L X P d)
    (hshaped : ∀ c ∈ toClear', Shaped b.timestamp c) :
    Mid b L X (fun c => P c ∨ c ∈ toClear') d :=
  h.mono (fun c hc => ⟨c, Or.inl hc, rfl⟩) fun c hc => hc.elim (h.shaped c) (hshaped c)

/-- What `set` without attributes does to a path that is not of its time. -/
theorem set_null_eq (hplain : star ∉ path) {t : Timestamp}
    (htimes : ∀ s, d.timestamps.get? path = some s → 0 < s ∧ s ≤ t)
    (hstored : (d.attributes.get? path).isSome = true → ∃ s, d.timestamps.get? path = some s)
    (hnew : d.timestamps.get? path ≠ some t) :
    let d' : DeviceData := { d with
      paths := d.paths.add path
      timestamps := d.timestamps.set path t }
    d.set path t none toClear = match d.attributes.get? path with
      | none => (d', toClear)
      | some _ => ({ d' with attributes := d.attributes.erase path },
          toClear ++ [⟨path, t, none, 1⟩]) := by
  intro d'
  have hcurrent := currentAttributes_interned htimes hstored
  have hnewer : isNewer t (d.timestamps.get? path) = true :=
    (isNewer_iff_ne fun s hs => (htimes s hs).2).mpr hnew
  have hw : d.written path t none = { d with paths := d.paths.add path }.writeNull path t := by
    show DeviceData.write _ path t none = _
    rw [write, if_neg (not_not.mpr (Path.wildcard_eq_zero.mpr hplain))]
  cases hcur : d.attributes.get? path with
  | none =>
      rw [hcur] at hcurrent
      have hwrote : d.written path t none = ⟨d', t, 0, false, []⟩ := by
        rw [hw, writeNull, if_pos hnewer, hcurrent]
      rw [set_of_written toClear hwrote, announce_zero, List.append_nil]
  | some cur =>
      rw [hcur] at hcurrent
      have hwrote : d.written path t none
          = ⟨{ d' with attributes := d.attributes.erase path }, t, 1, false, []⟩ := by
        rw [hw, writeNull, if_pos hnewer, hcurrent]
      rw [set_of_written toClear hwrote, announce_one, List.append_nil]

theorem set_null_gone (hplain : star ∉ path) {t : Timestamp}
    (htimes : ∀ s, d.timestamps.get? path = some s → 0 < s ∧ s ≤ t)
    (hstored : (d.attributes.get? path).isSome = true → ∃ s, d.timestamps.get? path = some s)
    (hnew : d.timestamps.get? path ≠ some t) :
    (d.set path t none []).1.attributes.get? path = none
      ∧ ∀ c ∈ (d.set path t none []).2, Shaped t c := by
  rw [set_null_eq hplain htimes hstored hnew]
  cases hcur : d.attributes.get? path with
  | none => exact ⟨hcur, fun c hc => absurd hc List.not_mem_nil⟩
  | some cur =>
      refine ⟨(InsMap.get?_erase d.attributes path path).trans (if_pos rfl), fun c hc => ?_⟩
      obtain rfl := List.mem_singleton.mp hc
      exact Or.inl ⟨rfl, rfl⟩

/-- Deleting a path that the batch does not write. -/
theorem set_null_mid (hmid : Mid b L X P d) (hpos : 0 < b.timestamp) (hplain : star ∉ path)
    (hfree : ¬ b.Touches path) (hP : ∀ c ∈ toClear, Shaped b.timestamp c) :
    let r := d.set path b.timestamp none toClear
    (∀ c ∈ r.2, Shaped b.timestamp c) ∧ Mid b L X (fun c => P c ∨ c ∈ r.2) r.1 := by
  have hpaths : ∀ p ∈ d.paths, p ∈ d.paths.add path := fun p hp => PathSet.mem_add.mpr (Or.inr hp)
  have hvacant : d.attributes.get? path = none →
      (∀ p, d.attributes.get? p = if p = path then none else d.attributes.get? p)
        ∧ ((d.attributes.get? path).isSome = true → ∃ c, P c ∧ c.path = path) := by
    intro hcur
    refine ⟨fun p => ?_, fun h => ?_⟩
    · by_cases hpp : p = path
      · rw [if_pos hpp, hpp]
        exact hcur
      · rw [if_neg hpp]
    · rw [hcur] at h
      cases h
  by_cases hsame : d.timestamps.get? path = some b.timestamp
  · have hcur : d.attributes.get? path = none := by
      by_contra hne
      exact hfree (hmid.touched path (Option.isSome_iff_ne_none.mpr hne) hsame)
    have hnewer : ¬ isNewer b.timestamp (d.timestamps.get? path) = true := fun h =>
      (isNewer_iff_ne fun s hs => (hmid.times path s hs).2).mp h hsame
    have hwrote : d.written path b.timestamp none
        = ⟨{ d with paths := d.paths.add path }, b.timestamp, 0, false, []⟩ := by
      show DeviceData.write _ path b.timestamp none = _
      rw [write, if_neg (not_not.mpr (Path.wildcard_eq_zero.mpr hplain)), writeNull, if_neg hnewer]
    rw [set_of_written toClear hwrote, announce_zero, List.append_nil]
    obtain ⟨hattrs, hnone⟩ := hvacant hcur
    exact ⟨hP, mid_grow (mid_vacant hmid hfree hpaths (fun _ _ => rfl) hattrs (hmid.times path)
      hnone) hP⟩
  · rw [set_null_eq hplain (hmid.times path) (hmid.stored path) hsame]
    have hset : ∀ p, p ≠ path →
        (d.timestamps.set path b.timestamp).get? p = d.timestamps.get? p := fun p hp =>
      InsMap.get?_set_of_ne _ hp _
    have hhere : ∀ t, (d.timestamps.set path b.timestamp).get? path = some t →
        0 < t ∧ t ≤ b.timestamp := by
      intro t ht
      rw [InsMap.get?_set_self] at ht
      obtain rfl := Option.some.inj ht
      exact ⟨hpos, le_rfl⟩
    cases hcur : d.attributes.get? path with
    | none =>
        obtain ⟨hattrs, hnone⟩ := hvacant hcur
        exact ⟨hP, mid_grow (mid_vacant hmid hfree hpaths hset hattrs hhere hnone) hP⟩
    | some cur =>
        have hshaped : ∀ c ∈ toClear ++ [⟨path, b.timestamp, none, 1⟩], Shaped b.timestamp c := by
          intro c hc
          rcases List.mem_append.mp hc with hc | hc
          · exact hP c hc
          · exact Or.inl (List.mem_singleton.mp hc ▸ ⟨rfl, rfl⟩)
        refine ⟨hshaped, mid_vacant (mid_grow hmid hshaped) hfree hpaths hset (fun p => ?_)
          hhere fun _ => ?_⟩
        · exact InsMap.get?_erase _ _ _
        · exact ⟨_, Or.inr (List.mem_append_right _ (List.mem_singleton_self _)), rfl⟩

/-- A path with wildcards has no attributes to lose. -/
theorem set_wildcard_mid (hmid : Mid b L X P d) (hpos : 0 < b.timestamp) (hwild : star ∈ path)
    (x : Option Attributes) (hP : ∀ c ∈ toClear, Shaped b.timestamp c) :
    let r := d.set path b.timestamp x toClear
    (∀ c ∈ r.2, Shaped b.timestamp c) ∧ Mid b L X (fun c => P c ∨ c ∈ r.2) r.1 := by
  have hfree : ¬ b.Touches path := fun h => touches_plain h hwild
  have hcur : d.attributes.get? path = none := by
    by_contra hne
    exact (hmid.plain path (Option.isSome_iff_ne_none.mpr hne)).1 hwild
  have hpaths : ∀ p ∈ d.paths, p ∈ d.paths.add path := fun p hp => PathSet.mem_add.mpr (Or.inr hp)
  have hattrs : ∀ p, d.attributes.get? p = if p = path then none else d.attributes.get? p := by
    intro p
    by_cases hpp : p = path
    · rw [if_pos hpp, hpp]
      exact hcur
    · rw [if_neg hpp]
  have hnone : (d.attributes.get? path).isSome = true → ∃ c, P c ∧ c.path = path := by
    rw [hcur]
    exact fun h => absurd h Bool.false_ne_true
  have hw : d.written path b.timestamp x
      = { d with paths := d.paths.add path }.writeWildcard path b.timestamp := by
    show DeviceData.write _ path b.timestamp x = _
    unfold write
    exact if_pos fun hzero => (Path.wildcard_eq_zero.mp hzero) hwild
  by_cases hnew : isNewer b.timestamp (d.timestamps.get? path) = true
  · obtain ⟨older, hwrote⟩ : ∃ older : List Path, d.written path b.timestamp x
        = ⟨{ d with
          paths := d.paths.add path
          timestamps := d.timestamps.set path b.timestamp }, b.timestamp, 0, false,
          older.map fun p => ⟨p, b.timestamp, none, 0⟩⟩ := by
      rw [hw, writeWildcard, if_pos hnew]
      exact ⟨_, rfl⟩
    have hresult : d.set path b.timestamp x toClear
        = ({ d with
            paths := d.paths.add path
            timestamps := d.timestamps.set path b.timestamp },
          toClear ++ older.map fun p => ⟨p, b.timestamp, none, 0⟩) := by
      rw [set_of_written toClear hwrote, announce_zero]
    have hshaped : ∀ c ∈ toClear ++ older.map fun p => (⟨p, b.timestamp, none, 0⟩ : Clear),
        Shaped b.timestamp c := by
      intro c hc
      rcases List.mem_append.mp hc with hc | hc
      · exact hP c hc
      · obtain ⟨p, -, rfl⟩ := List.mem_map.mp hc
        exact Or.inl ⟨rfl, rfl⟩
    rw [hresult]
    refine ⟨hshaped, mid_grow (mid_vacant hmid hfree hpaths
      (fun p hp => InsMap.get?_set_of_ne _ hp _) hattrs (fun t ht => ?_) hnone) hshaped⟩
    replace ht : (d.timestamps.set path b.timestamp).get? path = some t := ht
    rw [InsMap.get?_set_self] at ht
    obtain rfl := Option.some.inj ht
    exact ⟨hpos, le_rfl⟩
  · have hresult : d.set path b.timestamp x toClear
        = ({ d with paths := d.paths.add path }, toClear ++ []) := by
      have hwrote : d.written path b.timestamp x
          = ⟨{ d with paths := d.paths.add path }, b.timestamp, 0, false, []⟩ := by
        rw [hw, writeWildcard, if_neg hnew]
      rw [set_of_written toClear hwrote, announce_zero]
    rw [hresult, List.append_nil]
    exact ⟨hP, mid_grow (mid_vacant hmid hfree hpaths (fun _ _ => rfl) hattrs (hmid.times path)
      hnone) hP⟩

/-- The calls of a batch, one after the other. -/
theorem sets_mid {d₀ : DeviceData} (hb : b.Valid d₀) (hL : b.Within L) (sets : List (Path × Option Attributes))
    (hsets : ∀ s ∈ sets, s ∈ b.sets) (r : DeviceData × List Clear)
    (hshaped : ∀ c ∈ r.2, Shaped b.timestamp c)
    (hmid : Mid b L (fun _ => False) (fun c => c ∈ r.2) r.1) :
    let r' := sets.foldl (fun r s => r.1.set s.1 b.timestamp s.2 r.2) r
    Mid b L (fun _ => False) (fun c => c ∈ r'.2) r'.1 := by
  induction sets generalizing r with
  | nil => exact hmid
  | cons s sets ih =>
      obtain ⟨path, x⟩ := s
      have hmem : (path, x) ∈ b.sets := hsets _ (List.mem_cons_self ..)
      rw [List.foldl_cons]
      have hall : (∀ c ∈ (r.1.set path b.timestamp x r.2).2, Shaped b.timestamp c)
          ∧ Mid b L (fun _ => False) (fun c => c ∈ r.2 ∨ c ∈ (r.1.set path b.timestamp x r.2).2)
            (r.1.set path b.timestamp x r.2).1 := by
        by_cases hwild : star ∈ path
        · exact set_wildcard_mid hmid hL.positive hwild x hshaped
        · cases x with
          | none =>
              have hfree : ¬ b.Touches path := by
                rintro (hsets' | ⟨p, hp, hup⟩)
                · exact hb.once path hsets' hmem
                · exact hb.nested path none hwild hmem (fun a h => by cases h) p hp hup.2
              exact set_null_mid hmid hL.positive hwild hfree hshaped
          | some a =>
              have hpath : b.Sets path := ⟨hwild, a, hmem⟩
              have hopen : b.Opens path → ¬ Shuts a := by
                rintro ⟨p, hp, hup⟩ hshuts
                refine hb.nested path (some a) hwild hmem (fun a' h => ?_) p hp hup.2
                obtain rfl := Option.some.inj h
                exact hshuts
              have hup : Ascended b L (fun _ => False) (fun c => c ∈ r.2) path a r.2
                  (r.1.set path b.timestamp (some a) r.2) :=
                set_ascends hmid hL.positive hwild (hL.short path hpath) (Or.inl hpath)
                  (fun _ _ h => h) (hb.stamped path a hwild hmem) hopen
              refine ⟨fun c hc => (hup.clears c hc).elim (hshaped c) id, hup.mid.mono ?_ ?_⟩
              · rintro c (hc | ⟨hc, -⟩)
                · exact ⟨c, Or.inl hc, rfl⟩
                · exact ⟨c, Or.inr hc, rfl⟩
              · rintro c (hc | hc)
                · exact hshaped c hc
                · exact (hup.clears c hc).elim (hshaped c) id
      have hkeep := fun c hc => (set_extends r.1 path b.timestamp x r.2).2 c hc
      exact ih (fun s hs => hsets s (List.mem_cons_of_mem _ hs)) _ hall.1
        (hall.2.mono (fun c hc => ⟨c, hc.elim (hkeep c) id, rfl⟩) hall.1)

end Step

end DeviceData

end GenieAcs
