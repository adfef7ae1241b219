import GenieAcs.DeviceWrites

/-!
# Batches of device calls

Everything above a path that has attributes is to be an object at least as
recent as the path. A batch is what a session writes with one timestamp: calls
of `set`, and then the clears they return. It gives the closure of the tree up
in two ways only: below what it deletes or shuts, where the clears will drop
whatever is older than the batch, and on the way from a path it writes up to
the root. `Mid` is what holds in between.
-/

namespace GenieAcs

namespace DeviceData

/-! ## Closed trees -/

/-- `q` is a proper prefix of `p`, and not empty. -/
def Above (q p : Path) : Prop := q ≠ [] ∧ q <+: p ∧ q ≠ p

/-- `q` is an object, not older than `t`. -/
def Holds (d : DeviceData) (q : Path) (t : Timestamp) : Prop :=
  ∃ current time stamp, d.attributes.get? q = some current ∧ d.timestamps.get? q = some time
    ∧ t ≤ time ∧ current .object = some (stamp, .num 1)

/-- Everything above a path with attributes is an object at least as recent. -/
def Closed (d : DeviceData) : Prop :=
  ∀ p, (d.attributes.get? p).isSome = true →
    ∃ t, d.timestamps.get? p = some t ∧ ∀ q, Above q p → d.Holds q t

theorem Above.length_lt {q p : Path} (h : Above q p) : q.length < p.length := by
  obtain ⟨-, hprefix, hne⟩ := h
  refine lt_of_le_of_ne hprefix.length_le fun hlen => hne ?_
  exact hprefix.eq_of_length hlen

theorem Above.trans {q p r : Path} (h : Above q p) (hpr : p <+: r) : Above q r := by
  refine ⟨h.1, h.2.1.trans hpr, fun heq => ?_⟩
  have hlt := h.length_lt
  have hle := hpr.length_le
  rw [heq] at hlt
  omega

/-- What is above a path is its parent or above its parent. -/
theorem Above.cases {q p : Path} (h : Above q p) : 1 < p.length ∧
    (q = p.dropLast ∨ Above q p.dropLast) := by
  obtain ⟨hne, hprefix, hqp⟩ := h
  have hlt := Above.length_lt ⟨hne, hprefix, hqp⟩
  have hpos : 0 < q.length := List.length_pos_iff.mpr hne
  have hp : p ≠ [] := by
    rintro rfl
    exact absurd hlt (Nat.not_lt_zero _)
  have hup : q <+: p.dropLast := by
    rw [← List.dropLast_concat_getLast hp] at hprefix
    rcases List.prefix_concat_iff.mp hprefix with heq | hup
    · rw [List.dropLast_concat_getLast] at heq
      exact absurd heq hqp
    · exact hup
  refine ⟨by omega, ?_⟩
  by_cases heq : q = p.dropLast
  · exact Or.inl heq
  · exact Or.inr ⟨hne, hup, heq⟩

theorem above_dropLast {p : Path} (h : 1 < p.length) : Above p.dropLast p := by
  refine ⟨?_, List.dropLast_prefix p, fun heq => ?_⟩
  · intro hnil
    have hlen := congrArg List.length hnil
    rw [List.length_dropLast, List.length_nil] at hlen
    omega
  · have hlen := congrArg List.length heq
    rw [List.length_dropLast] at hlen
    omega

/-! ## Batches -/

/-- Calls of `set` with one timestamp. -/
structure Batch where
  timestamp : Timestamp
  sets : List (Path × Option Attributes)

namespace Batch

variable (b : Batch)

/-- The batch writes attributes of `p`. -/
def Sets (p : Path) : Prop := star ∉ p ∧ ∃ a, (p, some a) ∈ b.sets

/-- The batch writes attributes of a path below `q`. -/
def Opens (q : Path) : Prop := ∃ p, b.Sets p ∧ Above q p

def Touches (p : Path) : Prop := b.Sets p ∨ b.Opens p

/-- The calls, with the clears they return. -/
def setAll (d : DeviceData) : DeviceData × List Clear :=
  b.sets.foldl (fun r s => r.1.set s.1 b.timestamp s.2 r.2) (d, [])

/-- The calls, then the clears they returned. -/
def run (d : DeviceData) : DeviceData := (b.setAll d).2.foldl clear (b.setAll d).1

/-- The batch is newer than everything stored, and does not contradict itself. -/
structure Valid (d : DeviceData) : Prop where
  newer : ∀ p t, d.timestamps.get? p = some t → t < b.timestamp
  stamped : ∀ p a, star ∉ p → (p, some a) ∈ b.sets → ∀ x n, a x = some n → n.1 = b.timestamp
  nested : ∀ q x, star ∉ q → (q, x) ∈ b.sets → (∀ a, x = some a → Shuts a) →
    ∀ p, b.Sets p → ¬ (q <+: p ∧ q ≠ p)
  once : ∀ p, b.Sets p → (p, none) ∉ b.sets

/-- Its timestamp is positive, and the paths it writes are not longer than `L`. -/
structure Within (L : Nat) : Prop where
  positive : 0 < b.timestamp
  short : ∀ p, b.Sets p → p.length ≤ L

end Batch

/-! ## Between the calls of a batch -/

/-- `q` is an object of the time of the batch. -/
def Fresh (d : DeviceData) (t : Timestamp) (q : Path) : Prop :=
  ∃ current, d.attributes.get? q = some current ∧ d.timestamps.get? q = some t
    ∧ current .object = some (t, .num 1)

/-- What the calls of a batch keep, with the clears `P` still to come and the
way up from the paths `X` still to be written. -/
structure Mid (b : Batch) (L : Nat) (X : Path → Prop) (P : Clear → Prop) (d : DeviceData) : Prop where
  plain : ∀ p, (d.attributes.get? p).isSome = true →
    star ∉ p ∧ p ∈ d.paths ∧ p.length ≤ L
  times : ∀ p t, d.timestamps.get? p = some t → 0 < t ∧ t ≤ b.timestamp
  stamped : ∀ p current, d.attributes.get? p = some current →
    ∃ t, d.timestamps.get? p = some t ∧ ∀ x n, current x = some n → n.1 ≤ t
  touched : ∀ p, (d.attributes.get? p).isSome = true →
    d.timestamps.get? p = some b.timestamp → b.Touches p
  present : ∀ p, b.Touches p → d.timestamps.get? p = some b.timestamp →
    (d.attributes.get? p).isSome = true
  opened : ∀ q current v, b.Opens q → d.attributes.get? q = some current →
    current .object = some (b.timestamp, v) → v = .num 1
  fresh : ∀ p, ¬ X p → (d.attributes.get? p).isSome = true →
    d.timestamps.get? p = some b.timestamp → ∀ q, Above q p → d.Fresh b.timestamp q
  old : ∀ p t, (d.attributes.get? p).isSome = true → d.timestamps.get? p = some t →
    t < b.timestamp → ∀ q, Above q p → d.Holds q t ∨ ∃ c, P c ∧ c.path = q
  shaped : ∀ c, P c → Shaped b.timestamp c

/-- Of the clears to come only the paths matter. -/
theorem Mid.mono {b : Batch} {L : Nat} {X : Path → Prop} {P P' : Clear → Prop} {d : DeviceData}
    (h : Mid b L X P d) (hP : ∀ c, P c → ∃ c', P' c' ∧ c'.path = c.path)
    (hshaped : ∀ c, P' c → Shaped b.timestamp c) : Mid b L X P' d where
  plain := h.plain
  times := h.times
  stamped := h.stamped
  touched := h.touched
  present := h.present
  opened := h.opened
  fresh := h.fresh
  old p t hp ht hlt q hq := by
    rcases h.old p t hp ht hlt q hq with hholds | ⟨c, hc, hpath⟩
    · exact Or.inl hholds
    · obtain ⟨c', hc', hpath'⟩ := hP c hc
      exact Or.inr ⟨c', hc', hpath'.trans hpath⟩
  shaped := hshaped

/-- Only the maps of paths, timestamps and attributes matter. -/
theorem Mid.congr {b : Batch} {L : Nat} {X : Path → Prop} {P : Clear → Prop} {d d' : DeviceData}
    (h : Mid b L X P d) (hpaths : d'.paths = d.paths) (htimes : d'.timestamps = d.timestamps)
    (hattrs : d'.attributes = d.attributes) : Mid b L X P d' := by
  obtain ⟨paths, timestamps, attributes, trackers, changes⟩ := d
  obtain ⟨paths', timestamps', attributes', trackers', changes'⟩ := d'
  obtain rfl : paths' = paths := hpaths
  obtain rfl : timestamps' = timestamps := htimes
  obtain rfl : attributes' = attributes := hattrs
  exact ⟨h.plain, h.times, h.stamped, h.touched, h.present, h.opened, h.fresh, h.old, h.shaped⟩

section Step

variable {b : Batch} {L : Nat} {X : Path → Prop} {P : Clear → Prop} {d : DeviceData} {path : Path}
  {a : Attributes} {toClear : List Clear}

theorem Mid.stored (h : Mid b L X P d) (p : Path) (hp : (d.attributes.get? p).isSome = true) :
    ∃ t, d.timestamps.get? p = some t := by
  obtain ⟨current, hcur⟩ := Option.isSome_iff_exists.mp hp
  obtain ⟨t, ht, -⟩ := h.stamped p current hcur
  exact ⟨t, ht⟩

/-- The write itself, before anything above the path. -/
theorem mid_written (hmid : Mid b L X P d) (hpos : 0 < b.timestamp) (hplain : star ∉ path)
    (hlen : path.length ≤ L) (htouch : b.Touches path)
    (ha : ∀ x n, a x = some n → n.1 = b.timestamp) (hopen : b.Opens path → ¬ Shuts a)
    (hP : (d.written path b.timestamp (some a)).changeFlags.testBit 0 = true
        ∨ (d.written path b.timestamp (some a)).changeFlags.testBit AttrName.object.bit = true →
      ∃ c, P c ∧ c.path = path) :
    Mid b L (fun p => X p ∨ (p = path ∧ d.timestamps.get? path ≠ some b.timestamp)) P
      (d.written path b.timestamp (some a)).data := by
  obtain ⟨-, -, -, htime, hattrs, hflags⟩ :=
    written_attributes hplain (hmid.times path) (hmid.stored path) ha
  obtain ⟨hpaths, -, -, hframe⟩ :=
    write_frame { d with paths := d.paths.add path } path b.timestamp (some a)
  have ha' : ∀ x n, withoutValue (withObject a) x = some n → n.1 = b.timestamp :=
    adjusted_stamps ha
  have hmem : ∀ p, p = path ∨ p ∈ d.paths →
      p ∈ (d.written path b.timestamp (some a)).data.paths := by
    intro p hp
    have hadd : (d.written path b.timestamp (some a)).data.paths = d.paths.add path := hpaths
    rw [hadd]
    exact PathSet.mem_add.mpr hp
  have htime' : ∀ p, p ≠ path → (d.written path b.timestamp (some a)).data.timestamps.get? p
      = d.timestamps.get? p := fun p hp => (hframe p hp).1
  have hattrs' : ∀ p, p ≠ path → (d.written path b.timestamp (some a)).data.attributes.get? p
      = d.attributes.get? p := fun p hp => (hframe p hp).2
  generalize hD : (d.written path b.timestamp (some a)).data = D at *
  constructor
  case plain =>
    intro p hp
    by_cases hpp : p = path
    · subst hpp
      exact ⟨hplain, hmem p (Or.inl rfl), hlen⟩
    · rw [hattrs' p hpp] at hp
      obtain ⟨h1, h2, h3⟩ := hmid.plain p hp
      exact ⟨h1, hmem p (Or.inr h2), h3⟩
  case times =>
    intro p t ht
    by_cases hpp : p = path
    · subst hpp
      rw [htime] at ht
      obtain rfl := Option.some.inj ht
      exact ⟨hpos, le_rfl⟩
    · rw [htime' p hpp] at ht
      exact hmid.times p t ht
  case stamped =>
    intro p current hcur
    by_cases hpp : p = path
    · subst hpp
      refine ⟨_, htime, ?_⟩
      rw [hattrs] at hcur
      obtain rfl := Option.some.inj hcur
      cases hold : d.attributes.get? p with
      | none => exact fun x n hx => (ha' x n hx).le
      | some cur =>
          obtain ⟨s, hs, hstamps⟩ := hmid.stamped p cur hold
          exact merge_stamps (fun x n hx => (hstamps x n hx).trans (hmid.times p s hs).2)
            (fun x n hx => (ha' x n hx).le)
    · rw [hattrs' p hpp] at hcur
      rw [htime' p hpp]
      exact hmid.stamped p current hcur
  case touched =>
    intro p hp ht
    by_cases hpp : p = path
    · exact hpp ▸ htouch
    · rw [hattrs' p hpp] at hp
      rw [htime' p hpp] at ht
      exact hmid.touched p hp ht
  case present =>
    intro p hp ht
    by_cases hpp : p = path
    · subst hpp
      rw [hattrs]
      rfl
    · rw [htime' p hpp] at ht
      rw [hattrs' p hpp]
      exact hmid.present p hp ht
  case opened =>
    intro q current v hq hcur hv
    by_cases hqp : q = path
    · subst hqp
      rw [hattrs] at hcur
      obtain rfl := Option.some.inj hcur
      exact joined_opened (hopen hq) (fun cur v hold hobj => hmid.opened q cur v hq hold hobj) v hv
    · rw [hattrs' q hqp] at hcur
      exact hmid.opened q current v hq hcur hv
  case fresh =>
    intro p hX hp ht q hq
    have hkeep : d.Fresh b.timestamp q → D.Fresh b.timestamp q := by
      rintro ⟨cur, hcur, htq, hobj⟩
      by_cases hqp : q = path
      · subst hqp
        refine ⟨_, hattrs, htime, ?_⟩
        rw [hcur]
        exact joined_fresh ha' hobj
      · refine ⟨cur, ?_, ?_, hobj⟩
        · rw [hattrs' q hqp]
          exact hcur
        · rw [htime' q hqp]
          exact htq
    apply hkeep
    by_cases hpp : p = path
    · subst hpp
      have hsame : d.timestamps.get? p = some b.timestamp := by
        by_contra hne
        exact hX (Or.inr ⟨rfl, hne⟩)
      exact hmid.fresh p (fun h => hX (Or.inl h)) (hmid.present p htouch hsame) hsame q hq
    · rw [hattrs' p hpp] at hp
      rw [htime' p hpp] at ht
      exact hmid.fresh p (fun h => hX (Or.inl h)) hp ht q hq
  case old =>
    intro p t hp ht hlt q hq
    by_cases hpp : p = path
    · subst hpp
      rw [htime] at ht
      obtain rfl := Option.some.inj ht
      exact absurd hlt (lt_irrefl _)
    rw [hattrs' p hpp] at hp
    rw [htime' p hpp] at ht
    rcases hmid.old p t hp ht hlt q hq with ⟨cur, time, stamp, hcur, htq, hle, hobj⟩ | hclear
    · by_cases hqp : q = path
      · subst hqp
        rw [hcur] at hattrs hflags
        rcases joined_kept hobj (a := withoutValue (withObject a)) with ⟨stamp', hobj'⟩ | ⟨-, hbit⟩
        · exact Or.inl ⟨_, _, stamp', hattrs, htime, hlt.le, hobj'⟩
        · exact Or.inr (hP (Or.inr (by rw [hflags]; exact hbit)))
      · refine Or.inl ⟨cur, time, stamp, ?_, ?_, hle, hobj⟩
        · rw [hattrs' q hqp]
          exact hcur
        · rw [htime' q hqp]
          exact htq
    · exact Or.inr hclear
  case shaped => exact hmid.shaped

end Step

end DeviceData

end GenieAcs
