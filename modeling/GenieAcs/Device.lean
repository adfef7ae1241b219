import GenieAcs.Expression
import GenieAcs.PathSet

/-!
# Device data

`set` writes attributes of one path and everything that follows from them
further up; what is to disappear further down it only returns, as a list for
`clear`. Trackers register markers on patterns, and both functions add to
`changes` the markers that what they did concerns.

The two versioned maps stand at their current revision.
-/

namespace GenieAcs

/-! ## Attributes -/

inductive AttrName where
  | object | writable | value | notification | accessList
  deriving DecidableEq, Repr

namespace AttrName

def all : List AttrName := [object, writable, value, notification, accessList]

theorem mem_all (a : AttrName) : a ∈ all := by
  cases a <;> simp [all]

/-- The bit of an attribute in a set of flags; bit 0 is existence. -/
def bit : AttrName → Nat
  | object => 1
  | writable => 2
  | value => 3
  | notification => 4
  | accessList => 5

/-- `CHANGE_FLAGS`. -/
def flag (a : AttrName) : Nat := 2 ^ a.bit

/-- The flags of the attributes that `S` selects. -/
def flags (S : AttrName → Bool) : Nat :=
  all.foldl (fun f a => if S a then f ||| a.flag else f) 0

theorem testBit_flags (S : AttrName → Bool) (a : AttrName) :
    (flags S).testBit a.bit = S a := by
  cases ho : S object <;> cases hw : S writable <;> cases hv : S value <;>
    cases hn : S notification <;> cases hl : S accessList <;> cases a <;>
    simp [flags, all, ho, hw, hv, hn, hl] <;> decide

theorem testBit_flags_zero (S : AttrName → Bool) : (flags S).testBit 0 = false := by
  cases ho : S object <;> cases hw : S writable <;> cases hv : S value <;>
    cases hn : S notification <;> cases hl : S accessList <;>
    simp [flags, all, ho, hw, hv, hn, hl] <;> decide

end AttrName

inductive AttrValue where
  | scalar (v : Option Value)
  | array (vs : List (Option Value))
  deriving DecidableEq

namespace AttrValue

def null : AttrValue := scalar none

def num (q : ℚ) : AttrValue := scalar (some (.num q))

def truthy : AttrValue → Bool
  | scalar none => false
  | scalar (some (.bool b)) => b
  | scalar (some (.num q)) => q ≠ 0
  | scalar (some (.str s)) => !s.isEmpty
  | array _ => true

/-- `compareEquality`: arrays of strings, finite numbers, booleans and nulls
have one JSON text just when they are the same. -/
def compareEquality (a b : AttrValue) : Bool := a = b

end AttrValue

abbrev Timestamp := ℚ

/-- An object with one property for each attribute that is there. -/
abbrev Attributes := AttrName → Option (Timestamp × AttrValue)

abbrev AttributeTimestamps := AttrName → Option Timestamp

abbrev Marker := JsString

structure DeviceData where
  paths : PathSet
  timestamps : InsMap Path Timestamp
  attributes : InsMap Path Attributes
  trackers : InsMap Path (InsMap Marker Nat)
  changes : List Marker

/-- `initDeviceData`. -/
def initDeviceData : DeviceData where
  paths := .empty
  timestamps := .empty
  attributes := .empty
  trackers := .empty
  changes := []

/-- `[path, timestamp, attributes, changeFlags]`. -/
structure Clear where
  path : Path
  timestamp : Timestamp
  attributes : Option AttributeTimestamps
  changeFlags : Nat

namespace DeviceData

/-! ## Trackers -/

/-- `changes.add` for the markers whose flags meet `changeFlags`. -/
def note (d : DeviceData) (marks : List (Marker × Nat)) (changeFlags : Nat) : DeviceData :=
  { d with changes := d.changes ++
      (marks.filter (fun m => m.2 &&& changeFlags ≠ 0 ∧ m.1 ∉ d.changes)).map Prod.fst }

def marksOf (d : DeviceData) (p : Path) : List (Marker × Nat) :=
  ((d.trackers.get? p).getD .empty).entries

/-- `cur[marker] |= f`. -/
def orFlags (cur : InsMap Marker Nat) (marker : Marker) (f : Nat) : InsMap Marker Nat :=
  cur.set marker ((cur.get? marker).getD 0 ||| f)

/-- The flags of existence and of some attributes. -/
def trackFlags (attributes : List AttrName) : Nat :=
  attributes.foldl (fun f a => f ||| a.flag) 1

def track (d : DeviceData) (path : Path) (marker : Marker) (attributes : List AttrName) :
    DeviceData :=
  { d with
    paths := d.paths.add path
    trackers := d.trackers.set path
      (orFlags ((d.trackers.get? path).getD .empty) marker (trackFlags attributes)) }

/-! ## Clearing -/

/-- The timestamp that descendants must have. -/
def descendantsTimestamp (timestamp : Timestamp) (attributes : Option AttributeTimestamps) :
    Timestamp :=
  match attributes.bind (· .object) with
  | some object => if object ≠ 0 ∧ timestamp < object then object else timestamp
  | none => timestamp

/-- An outdated object has an outdated value. -/
def withValue (attributes : AttributeTimestamps) : AttributeTimestamps :=
  match attributes .object, attributes .value with
  | some object, some value =>
      if object ≠ 0 ∧ ¬ object ≤ value then Function.update attributes .value (some object)
      else attributes
  | some object, none =>
      if object ≠ 0 then Function.update attributes .value (some object) else attributes
  | none, _ => attributes

/-- The loop of `clear`: the data, what the paths found are tracked for, and
what has changed. -/
structure Clearing where
  data : DeviceData
  changeTrackers : InsMap Marker Nat
  changeFlags : Nat

/-- The attributes of `current` older than `attributes` wants them. -/
def outdated (attributes : AttributeTimestamps) (current : Attributes) (a : AttrName) : Bool :=
  match attributes a, current a with
  | some wanted, some (stamp, _) => stamp < wanted
  | _, _ => false

/-- Drop what is outdated of the path `p` below or at `path`. -/
def drop (path : Path) (timestamp descendants : Timestamp)
    (attributes : Option AttributeTimestamps) (d : DeviceData) (p : Path) : DeviceData × Nat :=
  match d.timestamps.get? p with
  | none => (d, 0)
  | some currentTimestamp =>
      if currentTimestamp < timestamp
          ∨ (currentTimestamp < descendants ∧ path.length < p.length) then
        ({ d with timestamps := d.timestamps.erase p, attributes := d.attributes.erase p }, 1)
      else
        match attributes, d.attributes.get? p with
        | some attributes, some current =>
            if p.length = path.length ∧ ∃ a ∈ AttrName.all, outdated attributes current a then
              ({ d with attributes := d.attributes.set p fun a =>
                  if outdated attributes current a then none else current a },
                AttrName.flags (outdated attributes current))
            else (d, 0)
        | _, _ => (d, 0)

def clearStep (path : Path) (timestamp descendants : Timestamp)
    (attributes : Option AttributeTimestamps) (st : Clearing) (p : Path) : Clearing :=
  let dropped := drop path timestamp descendants attributes st.data p
  { data := dropped.1
    changeTrackers := (st.data.marksOf p).foldl (fun m e => orFlags m e.1 e.2) st.changeTrackers
    changeFlags := st.changeFlags ||| dropped.2 }

/-- How far below the path `clear` looks. -/
def clearDepth (path : Path) (descendants : Timestamp) : Nat :=
  if descendants ≠ 0 then 99 else path.length

/-- The paths that `clear` looks at. -/
def found (d : DeviceData) (c : Clear) : List Path :=
  d.paths.find c.path true true
    (clearDepth c.path (descendantsTimestamp c.timestamp c.attributes))

/-- The state of `clear` after its loop. -/
def clearing (d : DeviceData) (c : Clear) : Clearing :=
  (d.found c).foldl
    (clearStep c.path c.timestamp (descendantsTimestamp c.timestamp c.attributes)
      (c.attributes.map withValue))
    ⟨d, .empty, c.changeFlags⟩

def clear (d : DeviceData) (c : Clear) : DeviceData :=
  (d.clearing c).data.note (d.clearing c).changeTrackers.entries (d.clearing c).changeFlags

/-! ## Setting -/

/-- A parameter with a value is not an object and the other way around. -/
def withObject (attributes : Attributes) : Attributes :=
  match attributes .value with
  | some (stamp, v) =>
      if v.truthy = true ∧ ((attributes .object).map Prod.fst).getD 0 ≤ stamp then
        Function.update attributes .object (some (stamp, .num 0))
      else attributes
  | none => attributes

def withoutValue (attributes : Attributes) : Attributes :=
  match attributes .object with
  | some (stamp, v) =>
      if v.truthy = true ∧ ((attributes .value).map Prod.fst).getD 0 ≤ stamp then
        Function.update attributes .value (some (stamp, .null))
      else attributes
  | none => attributes

/-- `timestamp` raised to those of the attributes. -/
def latest (timestamp : Timestamp) (attributes : Attributes) : Timestamp :=
  AttrName.all.foldl (fun t a => match attributes a with
    | some (stamp, _) => max t stamp
    | none => t) timestamp

/-- `newAttributes`: what is not newer than the current attribute is dropped. -/
def merge (current attributes : Attributes) : Attributes := fun a =>
  match attributes a, current a with
  | none, c => c
  | some n, none => some n
  | some n, some c => if n.1 ≤ c.1 then some c else some n

/-- The attributes that `merge` changes. -/
def changed (current attributes : Attributes) (a : AttrName) : Bool :=
  match attributes a, current a with
  | none, _ => false
  | some _, none => true
  | some n, some c => !(n.1 ≤ c.1) && !n.2.compareEquality c.2

/-- What `set` does with the path itself. -/
structure Written where
  data : DeviceData
  timestamp : Timestamp
  changeFlags : Nat
  /-- Whether the timestamp of the path went up. -/
  raised : Bool
  /-- The paths that a wildcard finds outdated. -/
  toClear : List Clear

/-- `!(timestamp <= currentTimestamp)`. -/
def isNewer (timestamp : Timestamp) (current : Option Timestamp) : Bool :=
  match current with
  | some c => ¬ timestamp ≤ c
  | none => true

/-- The attributes that a path with a timestamp has. -/
def currentAttributes (d : DeviceData) (path : Path) : Option Attributes :=
  match d.timestamps.get? path with
  | some t => if t ≠ 0 then d.attributes.get? path else none
  | none => none

/-- The branch of `set` with attributes. -/
def writeAttributes (d : DeviceData) (path : Path) (timestamp : Timestamp)
    (attributes : Attributes) : Written :=
  let current := d.timestamps.get? path
  let (timestamp, attributes', changeFlags) := match d.currentAttributes path with
    | some cur => (latest timestamp attributes, merge cur attributes,
        AttrName.flags (changed cur attributes))
    | none => (timestamp, attributes, 1)
  let d := { d with attributes := d.attributes.set path attributes' }
  if isNewer timestamp current then
    ⟨{ d with timestamps := d.timestamps.set path timestamp }, timestamp, changeFlags, true, []⟩
  else ⟨d, timestamp, changeFlags, false, []⟩

/-- The branch of `set` without attributes on a path without wildcards. -/
def writeNull (d : DeviceData) (path : Path) (timestamp : Timestamp) : Written :=
  if isNewer timestamp (d.timestamps.get? path) then
    let d' := { d with timestamps := d.timestamps.set path timestamp }
    match d.currentAttributes path with
    | some _ => ⟨{ d' with attributes := d.attributes.erase path }, timestamp, 1, false, []⟩
    | none => ⟨d', timestamp, 0, false, []⟩
  else ⟨d, timestamp, 0, false, []⟩

/-- The branch of `set` for a path with wildcards. -/
def writeWildcard (d : DeviceData) (path : Path) (timestamp : Timestamp) : Written :=
  if isNewer timestamp (d.timestamps.get? path) then
    let d := { d with timestamps := d.timestamps.set path timestamp }
    let older := (d.paths.find path false true path.length).filter fun p =>
      match d.timestamps.get? p with
      | some t => t < timestamp
      | none => false
    ⟨d, timestamp, 0, false, older.map fun p => ⟨p, timestamp, none, 0⟩⟩
  else ⟨d, timestamp, 0, false, []⟩

def write (d : DeviceData) (path : Path) (timestamp : Timestamp)
    (attributes : Option Attributes) : Written :=
  if path.wildcard ≠ 0 then d.writeWildcard path timestamp
  else match attributes with
    | some attributes => d.writeAttributes path timestamp (withoutValue (withObject attributes))
    | none => d.writeNull path timestamp

/-- The end of `set`: what changed is cleared below the path, or told to those
who track it. -/
def announce (d : DeviceData) (path : Path) (timestamp : Timestamp)
    (attributes : Option Attributes) (changeFlags : Nat) (toClear : List Clear) :
    DeviceData × List Clear :=
  if changeFlags.testBit 0 then
    (d, toClear ++ [⟨path, timestamp, none, changeFlags⟩])
  else if changeFlags.testBit AttrName.object.bit then
    let object := ((attributes.map fun a => withoutValue (withObject a)).bind (· .object)).map
      Prod.fst
    (d, toClear ++ [⟨path, 0, some (Function.update (fun _ => none) .object object),
      changeFlags⟩])
  else if changeFlags ≠ 0 then
    ((d.paths.find path true false path.length).foldl
      (fun d p => d.note (d.marksOf p) changeFlags) d, toClear)
  else (d, toClear)

/-- `{ object: [timestamp, 1] }`. -/
def parentAttributes (timestamp : Timestamp) : Attributes :=
  Function.update (fun _ => none) .object (some (timestamp, .num 1))

/-- The path is interned first. -/
def written (d : DeviceData) (path : Path) (timestamp : Timestamp)
    (attributes : Option Attributes) : Written :=
  { d with paths := d.paths.add path }.write path timestamp attributes

def set (d : DeviceData) (path : Path) (timestamp : Timestamp) (attributes : Option Attributes)
    (toClear : List Clear) : DeviceData × List Clear :=
  let w := d.written path timestamp attributes
  let above :=
    if w.raised = true ∧ 1 < path.length then
      set w.data path.dropLast w.timestamp (some (parentAttributes w.timestamp)) toClear
    else (w.data, toClear ++ w.toClear)
  announce above.1 path w.timestamp attributes w.changeFlags above.2
termination_by path.length
decreasing_by
  rename_i h
  rw [List.length_dropLast]
  omega

theorem set_raised {d : DeviceData} {path : Path} {timestamp : Timestamp}
    {attributes : Option Attributes} {toClear : List Clear}
    (h : (d.written path timestamp attributes).raised = true ∧ 1 < path.length) :
    let w := d.written path timestamp attributes
    let above := w.data.set path.dropLast w.timestamp (some (parentAttributes w.timestamp)) toClear
    d.set path timestamp attributes toClear
      = announce above.1 path w.timestamp attributes w.changeFlags above.2 := by
  rw [set, if_pos h]

theorem set_done {d : DeviceData} {path : Path} {timestamp : Timestamp}
    {attributes : Option Attributes} {toClear : List Clear}
    (h : ¬ ((d.written path timestamp attributes).raised = true ∧ 1 < path.length)) :
    let w := d.written path timestamp attributes
    d.set path timestamp attributes toClear
      = announce w.data path w.timestamp attributes w.changeFlags (toClear ++ w.toClear) := by
  rw [set, if_neg h]

/-! ## What clearing leaves -/

section Clear

variable {path : Path} {timestamp descendants : Timestamp} {attributes : Option AttributeTimestamps}
  {d : DeviceData} {p q : Path}

/-- A path with timestamp `t` is dropped. -/
def Removes (path : Path) (timestamp descendants : Timestamp) (p : Path) (t : Timestamp) : Prop :=
  t < timestamp ∨ (t < descendants ∧ path.length < p.length)

instance (t : Timestamp) : Decidable (Removes path timestamp descendants p t) :=
  inferInstanceAs (Decidable (_ ∨ _))

/-- The attributes that a path keeps when it is not dropped. -/
def kept (path : Path) (attributes : Option AttributeTimestamps) (p : Path)
    (current : Attributes) : Attributes := fun a =>
  match attributes with
  | some attributes =>
      if p.length = path.length ∧ outdated attributes current a = true then none else current a
  | none => current a

def timestampLeft (path : Path) (timestamp descendants : Timestamp) (p : Path)
    (t : Option Timestamp) : Option Timestamp :=
  match t with
  | none => none
  | some t => if Removes path timestamp descendants p t then none else some t

def attributesLeft (path : Path) (timestamp descendants : Timestamp)
    (attributes : Option AttributeTimestamps) (p : Path) (t : Option Timestamp)
    (current : Option Attributes) : Option Attributes :=
  match t with
  | none => current
  | some t =>
      if Removes path timestamp descendants p t then none
      else current.map (kept path attributes p)

theorem outdated_kept {wanted : AttributeTimestamps} {current : Attributes} {a : AttrName} :
    outdated wanted (kept path (some wanted) p current) a = true →
      p.length ≠ path.length := by
  intro h heq
  by_cases hout : outdated wanted current a = true
  · have hnone : kept path (some wanted) p current a = none := if_pos ⟨heq, hout⟩
    rw [outdated, hnone] at h
    cases hw : wanted a <;> simp [hw] at h
  · have hsame : kept path (some wanted) p current a = current a := if_neg fun h => hout h.2
    rw [outdated, hsame] at h
    exact hout h

theorem kept_kept (current : Attributes) :
    kept path attributes p (kept path attributes p current) = kept path attributes p current := by
  funext a
  cases attributes with
  | none => rfl
  | some wanted =>
      show (if _ then none else kept path (some wanted) p current a) = _
      rw [if_neg fun h => outdated_kept h.2 h.1]

theorem kept_of_not_outdated {wanted : AttributeTimestamps} {current : Attributes}
    (h : ¬ (p.length = path.length ∧ ∃ a ∈ AttrName.all, outdated wanted current a = true)) :
    kept path (some wanted) p current = current := by
  funext a
  show (if _ then none else current a) = _
  rw [if_neg fun ha => h ⟨ha.1, a, AttrName.mem_all a, ha.2⟩]

/-- Dropping what is outdated of `p` is a matter of what is stored for `p`. -/
theorem drop_spec : let d' := (drop path timestamp descendants attributes d p).1
    d'.paths = d.paths ∧ d'.trackers = d.trackers ∧ d'.changes = d.changes
      ∧ (∀ q, d'.timestamps.get? q = if q = p
          then timestampLeft path timestamp descendants p (d.timestamps.get? p)
          else d.timestamps.get? q)
      ∧ ∀ q, d'.attributes.get? q = if q = p
          then attributesLeft path timestamp descendants attributes p (d.timestamps.get? p)
            (d.attributes.get? p)
          else d.attributes.get? q := by
  have hself : ∀ {V : Type} (m : InsMap Path V) (q : Path),
      m.get? q = if q = p then m.get? p else m.get? q := by
    intro V m q
    by_cases h : q = p
    · rw [if_pos h, h]
    · rw [if_neg h]
  unfold drop
  cases ht : d.timestamps.get? p with
  | none =>
      refine ⟨rfl, rfl, rfl, fun q => ?_, fun q => hself d.attributes q⟩
      have htime := hself d.timestamps q
      rw [ht] at htime
      exact htime
  | some t =>
      by_cases hremoves : Removes path timestamp descendants p t
      · have hif : t < timestamp ∨ (t < descendants ∧ path.length < p.length) := hremoves
        simp only [if_pos hif]
        refine ⟨trivial, trivial, trivial, fun q => ?_, fun q => ?_⟩
        · rw [InsMap.get?_erase]
          simp [timestampLeft, hremoves]
        · rw [InsMap.get?_erase]
          simp [attributesLeft, hremoves]
      · have hif : ¬ (t < timestamp ∨ (t < descendants ∧ path.length < p.length)) := hremoves
        simp only [if_neg hif]
        have htime : ∀ q, d.timestamps.get? q = if q = p
            then timestampLeft path timestamp descendants p (some t) else d.timestamps.get? q := by
          intro q
          have hleft : timestampLeft path timestamp descendants p (some t) = some t :=
            if_neg hremoves
          rw [hleft, ← ht]
          exact hself d.timestamps q
        have hattrs : ∀ current, d.attributes.get? p = current →
            current.map (kept path attributes p) = current → ∀ q, d.attributes.get? q = if q = p
              then attributesLeft path timestamp descendants attributes p (some t) current
              else d.attributes.get? q := by
          intro current hcur hsame q
          have hleft : attributesLeft path timestamp descendants attributes p (some t) current
              = current.map (kept path attributes p) := if_neg hremoves
          rw [hleft, hsame, ← hcur]
          exact hself d.attributes q
        cases hwanted : attributes with
        | none =>
            subst hwanted
            refine ⟨rfl, rfl, rfl, htime, hattrs _ rfl ?_⟩
            cases d.attributes.get? p <;> rfl
        | some wanted =>
            subst hwanted
            cases hcur : d.attributes.get? p with
            | none => exact ⟨rfl, rfl, rfl, htime, hattrs none hcur rfl⟩
            | some current =>
                by_cases hout : p.length = path.length
                    ∧ ∃ a ∈ AttrName.all, outdated wanted current a = true
                · simp only [if_pos hout]
                  refine ⟨trivial, trivial, trivial, htime, fun q => ?_⟩
                  have hleft : attributesLeft path timestamp descendants (some wanted) p (some t)
                      (some current) = some (kept path (some wanted) p current) := if_neg hremoves
                  have hkept : kept path (some wanted) p current = fun a =>
                      if outdated wanted current a then none else current a := by
                    funext a
                    simp [kept, hout.1]
                  rw [InsMap.get?_set, hleft, hkept]
                · simp only [if_neg hout]
                  refine ⟨trivial, trivial, trivial, htime, hattrs (some current) hcur ?_⟩
                  rw [Option.map_some, kept_of_not_outdated hout]

theorem timestampLeft_again (t : Option Timestamp) :
    timestampLeft path timestamp descendants p (timestampLeft path timestamp descendants p t)
      = timestampLeft path timestamp descendants p t := by
  cases t with
  | none => rfl
  | some t =>
      by_cases h : Removes path timestamp descendants p t
      · simp [timestampLeft, h]
      · simp [timestampLeft, h]

theorem attributesLeft_again (t : Option Timestamp) (current : Option Attributes) :
    attributesLeft path timestamp descendants attributes p
        (timestampLeft path timestamp descendants p t)
        (attributesLeft path timestamp descendants attributes p t current)
      = attributesLeft path timestamp descendants attributes p t current := by
  cases t with
  | none => rfl
  | some t =>
      by_cases h : Removes path timestamp descendants p t
      · simp [timestampLeft, attributesLeft, h]
      · cases current with
        | none => simp [timestampLeft, attributesLeft, h]
        | some current => simp [timestampLeft, attributesLeft, h, kept_kept]

/-- The loop of `clear` drops what is outdated of each path on its own. -/
theorem clearing_spec (found : List Path) (st : Clearing) :
    let d' := (found.foldl (clearStep path timestamp descendants attributes) st).data
    d'.paths = st.data.paths ∧ d'.trackers = st.data.trackers ∧ d'.changes = st.data.changes
      ∧ (∀ q, d'.timestamps.get? q = if q ∈ found
          then timestampLeft path timestamp descendants q (st.data.timestamps.get? q)
          else st.data.timestamps.get? q)
      ∧ ∀ q, d'.attributes.get? q = if q ∈ found
          then attributesLeft path timestamp descendants attributes q (st.data.timestamps.get? q)
            (st.data.attributes.get? q)
          else st.data.attributes.get? q := by
  induction found generalizing st with
  | nil => exact ⟨rfl, rfl, rfl, fun q => rfl, fun q => rfl⟩
  | cons p found ih =>
      obtain ⟨hpaths, htrackers, hchanges, htimes, hattrs⟩ :=
        ih (clearStep path timestamp descendants attributes st p)
      obtain ⟨hpaths', htrackers', hchanges', htimes', hattrs'⟩ :=
        @drop_spec path timestamp descendants attributes st.data p
      refine ⟨hpaths.trans hpaths', htrackers.trans htrackers', hchanges.trans hchanges',
        fun q => ?_, fun q => ?_⟩
      · rw [List.foldl_cons, htimes]
        show (if q ∈ found then timestampLeft path timestamp descendants q
          ((drop path timestamp descendants attributes st.data p).1.timestamps.get? q)
          else (drop path timestamp descendants attributes st.data p).1.timestamps.get? q) = _
        rw [htimes']
        by_cases hqp : q = p
        · subst hqp
          rw [if_pos rfl, if_pos (List.mem_cons_self ..), timestampLeft_again]
          exact ite_self _
        · rw [if_neg hqp]
          simp [hqp]
      · rw [List.foldl_cons, hattrs]
        show (if q ∈ found then attributesLeft path timestamp descendants attributes q
          ((drop path timestamp descendants attributes st.data p).1.timestamps.get? q)
          ((drop path timestamp descendants attributes st.data p).1.attributes.get? q)
          else (drop path timestamp descendants attributes st.data p).1.attributes.get? q) = _
        rw [htimes', hattrs']
        by_cases hqp : q = p
        · subst hqp
          rw [if_pos rfl, if_pos rfl, if_pos (List.mem_cons_self ..), attributesLeft_again]
          exact ite_self _
        · rw [if_neg hqp, if_neg hqp]
          simp [hqp]

end Clear

/-- What `clear` leaves of the timestamp of a path. -/
def Clear.timestampAfter (c : Clear) (p : Path) (t : Option Timestamp) : Option Timestamp :=
  timestampLeft c.path c.timestamp (descendantsTimestamp c.timestamp c.attributes) p t

/-- What `clear` leaves of the attributes of a path. -/
def Clear.attributesAfter (c : Clear) (p : Path) (t : Option Timestamp)
    (current : Option Attributes) : Option Attributes :=
  attributesLeft c.path c.timestamp (descendantsTimestamp c.timestamp c.attributes)
    (c.attributes.map withValue) p t current

theorem clear_spec (d : DeviceData) (c : Clear) :
    (d.clear c).paths = d.paths ∧ (d.clear c).trackers = d.trackers
      ∧ (∀ p, (d.clear c).timestamps.get? p = if p ∈ d.found c
          then Clear.timestampAfter c p (d.timestamps.get? p) else d.timestamps.get? p)
      ∧ ∀ p, (d.clear c).attributes.get? p = if p ∈ d.found c
          then Clear.attributesAfter c p (d.timestamps.get? p) (d.attributes.get? p)
          else d.attributes.get? p := by
  have hspec := @clearing_spec c.path c.timestamp
    (descendantsTimestamp c.timestamp c.attributes) (c.attributes.map withValue) (d.found c)
    ⟨d, .empty, c.changeFlags⟩
  exact ⟨hspec.1, hspec.2.1, hspec.2.2.2.1, hspec.2.2.2.2⟩

/-- A hundred fragments, one more than `clear` looks for. -/
def deepPath : Path := List.replicate 100 (js "a")

/-! ## What setting writes -/

theorem isNewer_iff {timestamp : Timestamp} {current : Option Timestamp} :
    isNewer timestamp current = true ↔ ∀ c, current = some c → c < timestamp := by
  cases current with
  | none => exact iff_of_true rfl (fun c h => nomatch h)
  | some c => simp [isNewer]

/-- Attributes stamped no later than `timestamp` do not raise it. -/
theorem latest_eq {timestamp : Timestamp} {attributes : Attributes}
    (h : ∀ a n, attributes a = some n → n.1 ≤ timestamp) :
    latest timestamp attributes = timestamp := by
  have hfold : ∀ names : List AttrName, names.foldl (fun t a => match attributes a with
      | some (stamp, _) => max t stamp
      | none => t) timestamp = timestamp := by
    intro names
    induction names with
    | nil => rfl
    | cons a names ih =>
        rw [List.foldl_cons]
        cases ha : attributes a with
        | none => exact ih
        | some n =>
            show names.foldl _ (max timestamp n.1) = timestamp
            rw [max_eq_left (h a n ha)]
            exact ih
  exact hfold _

/-- Only what is stored for the path itself is written. -/
theorem write_frame (d : DeviceData) (path : Path) (timestamp : Timestamp)
    (attributes : Option Attributes) : let d' := (d.write path timestamp attributes).data
    d'.paths = d.paths ∧ d'.trackers = d.trackers ∧ d'.changes = d.changes
      ∧ ∀ p, p ≠ path → d'.timestamps.get? p = d.timestamps.get? p
        ∧ d'.attributes.get? p = d.attributes.get? p := by
  by_cases hwild : path.wildcard ≠ 0
  · simp only [write, if_pos hwild, writeWildcard]
    split_ifs
    · exact ⟨rfl, rfl, rfl, fun p hp => ⟨InsMap.get?_set_of_ne _ hp _, rfl⟩⟩
    · exact ⟨rfl, rfl, rfl, fun _ _ => ⟨rfl, rfl⟩⟩
  · simp only [write, if_neg hwild]
    cases attributes with
    | none =>
        simp only [writeNull]
        split_ifs
        · cases d.currentAttributes path with
          | none => exact ⟨rfl, rfl, rfl, fun p hp => ⟨InsMap.get?_set_of_ne _ hp _, rfl⟩⟩
          | some cur =>
              refine ⟨rfl, rfl, rfl, fun p hp => ⟨InsMap.get?_set_of_ne _ hp _, ?_⟩⟩
              show (d.attributes.erase path).get? p = _
              rw [InsMap.get?_erase, if_neg hp]
        · exact ⟨rfl, rfl, rfl, fun _ _ => ⟨rfl, rfl⟩⟩
    | some attributes =>
        simp only [writeAttributes]
        split_ifs
        · exact ⟨rfl, rfl, rfl, fun p hp =>
            ⟨InsMap.get?_set_of_ne _ hp _, InsMap.get?_set_of_ne _ hp _⟩⟩
        · exact ⟨rfl, rfl, rfl, fun p hp => ⟨rfl, InsMap.get?_set_of_ne _ hp _⟩⟩

theorem currentAttributes_eq_some {d : DeviceData} {path : Path} {cur : Attributes}
    (h : d.currentAttributes path = some cur) : d.attributes.get? path = some cur := by
  rw [currentAttributes] at h
  split at h
  · split_ifs at h
    exact h
  · cases h

theorem testBit_one : (1 : Nat).testBit 0 = true := by decide

theorem note_changes (d : DeviceData) (marks : List (Marker × Nat)) (flags : Nat) {k : Marker}
    (h : k ∈ d.changes) : k ∈ (d.note marks flags).changes :=
  List.mem_append_left _ h

theorem foldl_note (d : DeviceData) (found : List Path) (flags : Nat) :
    let d' := found.foldl (fun d p => d.note (d.marksOf p) flags) d
    d'.paths = d.paths ∧ d'.trackers = d.trackers ∧ d'.timestamps = d.timestamps
      ∧ d'.attributes = d.attributes ∧ ∀ k ∈ d.changes, k ∈ d'.changes := by
  induction found generalizing d with
  | nil => exact ⟨rfl, rfl, rfl, rfl, fun _ h => h⟩
  | cons p found ih =>
      obtain ⟨h1, h2, h3, h4, h5⟩ := ih (d.note (d.marksOf p) flags)
      exact ⟨h1, h2, h3, h4, fun k hk => h5 k (note_changes _ _ _ hk)⟩

theorem announce_frame (d : DeviceData) (path : Path) (timestamp : Timestamp)
    (attributes : Option Attributes) (flags : Nat) (toClear : List Clear) :
    let r := announce d path timestamp attributes flags toClear
    r.1.paths = d.paths ∧ r.1.trackers = d.trackers ∧ r.1.timestamps = d.timestamps
      ∧ r.1.attributes = d.attributes ∧ (∀ k ∈ d.changes, k ∈ r.1.changes)
      ∧ ∀ c ∈ toClear, c ∈ r.2 := by
  unfold announce
  split_ifs
  · exact ⟨rfl, rfl, rfl, rfl, fun _ h => h, fun c h => List.mem_append_left _ h⟩
  · exact ⟨rfl, rfl, rfl, rfl, fun _ h => h, fun c h => List.mem_append_left _ h⟩
  · obtain ⟨h1, h2, h3, h4, h5⟩ := foldl_note d (d.paths.find path true false path.length) flags
    exact ⟨h1, h2, h3, h4, h5, fun _ h => h⟩
  · exact ⟨rfl, rfl, rfl, rfl, fun _ h => h, fun _ h => h⟩

/-- `set` touches a path and what is above it. -/
theorem set_frame (d : DeviceData) (path : Path) (timestamp : Timestamp)
    (attributes : Option Attributes) (toClear : List Clear) {q : Path} (hq : ¬ q <+: path) :
    let d' := (d.set path timestamp attributes toClear).1
    d'.timestamps.get? q = d.timestamps.get? q ∧ d'.attributes.get? q = d.attributes.get? q := by
  induction d, path, timestamp, attributes using DeviceData.set.induct toClear with
  | case1 d path timestamp attributes w ih =>
      have hne : q ≠ path := fun h => hq (h ▸ List.prefix_rfl)
      obtain ⟨-, -, -, hwritten⟩ :=
        write_frame { d with paths := d.paths.add path } path timestamp attributes
      obtain ⟨htime, hattrs⟩ := hwritten q hne
      by_cases h : w.raised = true ∧ 1 < path.length
      · rw [set_raised h]
        obtain ⟨-, -, htimes, hall, -⟩ := announce_frame (w.data.set path.dropLast w.timestamp
          (some (parentAttributes w.timestamp)) toClear).1 path w.timestamp attributes
          w.changeFlags (w.data.set path.dropLast w.timestamp
          (some (parentAttributes w.timestamp)) toClear).2
        obtain ⟨htime', hattrs'⟩ := ih h fun hup => hq (hup.trans (List.dropLast_prefix path))
        exact ⟨(congrArg (InsMap.get? · q) htimes).trans (htime'.trans htime),
          (congrArg (InsMap.get? · q) hall).trans (hattrs'.trans hattrs)⟩
      · rw [set_done h]
        obtain ⟨-, -, htimes, hall, -⟩ := announce_frame w.data path w.timestamp attributes
          w.changeFlags (toClear ++ w.toClear)
        exact ⟨(congrArg (InsMap.get? · q) htimes).trans htime,
          (congrArg (InsMap.get? · q) hall).trans hattrs⟩

/-- The paths stay, the trackers stay, nothing is taken back. -/
def Extends (d d' : DeviceData) : Prop :=
  (∀ p, p ∈ d.paths → p ∈ d'.paths) ∧ d'.trackers = d.trackers ∧ ∀ k ∈ d.changes, k ∈ d'.changes

theorem Extends.trans {d d' d'' : DeviceData} (h : Extends d d') (h' : Extends d' d'') :
    Extends d d'' :=
  ⟨fun p hp => h'.1 p (h.1 p hp), h'.2.1.trans h.2.1, fun k hk => h'.2.2 k (h.2.2 k hk)⟩

theorem write_extends (d : DeviceData) (path : Path) (timestamp : Timestamp)
    (attributes : Option Attributes) :
    Extends d (d.written path timestamp attributes).data := by
  obtain ⟨hpaths, htrackers, hchanges, -⟩ :=
    write_frame { d with paths := d.paths.add path } path timestamp attributes
  refine ⟨fun p hp => ?_, htrackers, fun k hk => hchanges ▸ hk⟩
  have hadd : (d.written path timestamp attributes).data.paths = d.paths.add path := hpaths
  rw [hadd]
  exact PathSet.mem_add.mpr (Or.inr hp)

theorem announce_extends (d : DeviceData) (path : Path) (timestamp : Timestamp)
    (attributes : Option Attributes) (flags : Nat) (toClear : List Clear) :
    Extends d (announce d path timestamp attributes flags toClear).1 := by
  obtain ⟨hpaths, htrackers, -, -, hchanges, -⟩ :=
    announce_frame d path timestamp attributes flags toClear
  exact ⟨fun p hp => by rw [hpaths]; exact hp, htrackers, hchanges⟩

theorem set_extends (d : DeviceData) (path : Path) (timestamp : Timestamp)
    (attributes : Option Attributes) (toClear : List Clear) :
    Extends d (d.set path timestamp attributes toClear).1
      ∧ ∀ c ∈ toClear, c ∈ (d.set path timestamp attributes toClear).2 := by
  induction d, path, timestamp, attributes using DeviceData.set.induct toClear with
  | case1 d path timestamp attributes w ih =>
      have hw := write_extends d path timestamp attributes
      by_cases h : w.raised = true ∧ 1 < path.length
      · rw [set_raised h]
        obtain ⟨habove, hclears⟩ := ih h
        have hlast := announce_frame (w.data.set path.dropLast w.timestamp
          (some (parentAttributes w.timestamp)) toClear).1 path w.timestamp attributes
          w.changeFlags (w.data.set path.dropLast w.timestamp
          (some (parentAttributes w.timestamp)) toClear).2
        exact ⟨(hw.trans habove).trans (announce_extends _ _ _ _ _ _),
          fun c hc => hlast.2.2.2.2.2 c (hclears c hc)⟩
      · rw [set_done h]
        have hlast := announce_frame w.data path w.timestamp attributes w.changeFlags
          (toClear ++ w.toClear)
        exact ⟨hw.trans (announce_extends _ _ _ _ _ _),
          fun c hc => hlast.2.2.2.2.2 c (List.mem_append_left _ hc)⟩

theorem announce_zero (d : DeviceData) (path : Path) (timestamp : Timestamp)
    (attributes : Option Attributes) (toClear : List Clear) :
    announce d path timestamp attributes 0 toClear = (d, toClear) := by
  simp [announce]

theorem announce_one (d : DeviceData) (path : Path) (timestamp : Timestamp)
    (attributes : Option Attributes) (toClear : List Clear) :
    announce d path timestamp attributes 1 toClear
      = (d, toClear ++ [⟨path, timestamp, none, 1⟩]) :=
  if_pos testBit_one

/-- A write that does not raise the timestamp goes no further up. -/
theorem set_of_written {d d' : DeviceData} {path : Path} {timestamp timestamp' : Timestamp}
    {attributes : Option Attributes} {flags : Nat} {older : List Clear} (toClear : List Clear)
    (h : d.written path timestamp attributes = ⟨d', timestamp', flags, false, older⟩) :
    d.set path timestamp attributes toClear
      = announce d' path timestamp' attributes flags (toClear ++ older) := by
  rw [set_done (by rw [h]; exact fun hr => Bool.false_ne_true hr.1), h]

end DeviceData

end GenieAcs
