import GenieAcs.CpeResponses
import GenieAcs.Instances
import GenieAcs.Lib.Batches
import GenieAcs.Lib.Groups
import GenieAcs.RefreshSets

/-!
# The write phase

Once a level is read, `generateSetRpcRequest` takes from the sets of a session
what the next request is to change: instances to delete, then instances to
create, values, attributes, downloads, a reboot and a factory reset.

Every planned deletion and creation is sent once or is still planned, and every
value has one turn, at which it is sent if the parameter can be written and has
another value (`Writes.writes_exact`). A value that was stored as it was sent is not
sent again (`setValue_stored`).
-/

namespace GenieAcs

/-! ## Sanitizing a value -/

section

variable (J : Js) (parseDate : JsString → JsNumber)

def sanitizeParameterValue (val : Value) (type : Option Value) : Sanitized :=
  match val with
  | .str s => sanitizeText parseDate s type
  | .num q =>
      if type = some (.str (js "xsd:int")) ∨ type = some (.str (js "xsd:unsignedInt"))
          ∨ type = some (.str (js "xsd:dateTime")) then .number (q : WithTop ℚ)
      else sanitizeText parseDate (J.numberToString q) type
  | .bool b =>
      if type = some (.str (js "xsd:boolean")) then .bool b
      else if type = some (.str (js "xsd:dateTime")) then .number (boolToNumber b : WithTop ℚ)
      else sanitizeText parseDate (js (toString b)) type

/-- `q - q % 1000`, where the remainder has the sign of `q`. -/
def wholeSeconds (q : ℚ) : ℚ := (if 0 ≤ q then ⌊q / 1000⌋ else ⌈q / 1000⌉) * 1000

def Sanitized.stripMilliseconds : Sanitized → Sanitized
  | .number (some (some q)) => .number (wholeSeconds q : WithTop ℚ)
  | val => val

/-- `===` of a value that may be missing. -/
def sameValue : Option Sanitized → Option Value → Bool
  | none, none => true
  | some val, some stored => val.is stored
  | _, _ => false

end

/-! ## Requests and configuration -/

/-- A request of the write phase, by its paths. -/
inductive WriteRequest where
  | deleteObject (inst : Path)
  | addObject (param : Path) (inst : Nat × InstanceKeys)
  | setValues (parameterList : List (Path × Option Sanitized × Option Value))
  | setAttributes (parameterList : List (Path × Spa))
  | download (path : Path) (fileType fileName targetFileName : Option Value)
  | reboot
  | factoryReset

structure WriteConfig where
  SKIP_WRITABLE_CHECK : Bool := false
  GPV_BATCH_SIZE : ℚ := 32
  DATETIME_MILLISECONDS : Bool := true
  BOOLEAN_LITERAL : Bool := true

/-- A value as a request holds it. -/
def Sanitized.toValue : Sanitized → Option Value
  | .bool b => some (.bool b)
  | .number (some (some q)) => some (.num q)
  | .number _ => none
  | .text s => some (.str s)

/-- `objectName` of a request to delete or to create an instance. -/
def objectName (path : Path) : JsString := plainText path ++ js "."

def notificationOf : AttrValue → Option ℚ
  | .scalar (some (.num q)) => some q
  | _ => none

def accessListOf : AttrValue → Option (List (Option Value))
  | .array list => some list
  | .scalar _ => none

/-- The request as it is sent; the path of a download has no wildcard. -/
def WriteRequest.toRpc (cfg : WriteConfig) (commandKey : JsString) :
    WriteRequest → Option RpcRequest
  | deleteObject inst => some (.deleteObject (objectName inst))
  | addObject param inst => some (.addObject (objectName param) inst.2)
  | setValues list => some (.setParameterValues
      (list.map fun e => (plainText e.1, e.2.1.bind Sanitized.toValue, e.2.2))
      cfg.DATETIME_MILLISECONDS cfg.BOOLEAN_LITERAL)
  | setAttributes list => some (.setParameterAttributes (list.map fun e =>
      (plainText e.1, notificationOf e.2.notification, accessListOf e.2.accessList)))
  | download path fileType fileName targetFileName =>
      if h : path.getD 1 [] ≠ star then
        some (.download ⟨commandKey, ⟨path.getD 1 [], h⟩, fileType, fileName, targetFileName⟩)
      else none
  | reboot => some .reboot
  | factoryReset => some .factoryReset

/-- What a session context has to be set on its device. -/
structure WriteState where
  deviceData : DeviceData
  timestamp : ℚ
  instancesToDelete : InsMap Path (List Path)
  instancesToCreate : InsMap Path InstanceSet
  spv : List (Path × AttrValue)
  spa : List (Path × Spa)
  downloadsDownload : List (Path × Option Value)
  reboot : JsNumber
  factoryReset : JsNumber

/-- What a stage leaves, with its request if it makes one. -/
abbrev WriteStage := WriteState → Except Thrown (WriteState × Option WriteRequest)

namespace WriteState

open Batch

section

variable (J : Js) (parseDate : JsString → JsNumber) (cfg : WriteConfig)

def held (attrs : Attributes) (a : AttrName) : Option AttrValue := (attrs a).map Prod.snd

def canWrite (attrs : Attributes) : Bool :=
  cfg.SKIP_WRITABLE_CHECK || (held attrs .writable).any AttrValue.truthy

/-- The parameter is there and can be written. -/
def writable (d : DeviceData) (p : Path) : Bool := (d.attributes.get? p).any (canWrite cfg)

/-! ## Instances -/

def findDelete (d : DeviceData) (entries : List (Path × List Path)) :
    Option (Path × List Path × Path) :=
  entries.findSome? fun e => (e.2.find? (writable cfg d)).map fun inst => (e.1, e.2, inst)

def deleteInstance : WriteStage := fun x => .ok <|
  match findDelete cfg x.deviceData x.instancesToDelete.entries with
  | some (parent, instances, inst) =>
      ({ x with instancesToDelete := x.instancesToDelete.set parent (instances.erase inst) },
        some (.deleteObject inst))
  | none => (x, none)

def findCreate (d : DeviceData) (entries : List (Path × InstanceSet)) :
    Option (Path × InstanceSet × (Nat × InstanceKeys)) :=
  entries.findSome? fun e =>
    if writable cfg d e.1 then e.2.set.head?.map fun inst => (e.1, e.2, inst) else none

def createInstance : WriteStage := fun x => .ok <|
  match findCreate cfg x.deviceData x.instancesToCreate.entries with
  | some (param, instances, inst) =>
      ({ x with instancesToCreate := x.instancesToCreate.set param (instances.delete inst.1) },
        some (.addObject param inst))
  | none => (x, none)

/-! ## Values and attributes -/

/-- `curVal`, if it is truthy and the parameter can be written. -/
def currentValue (attrs : Attributes) : Option AttrValue :=
  (held attrs .value).filter fun curVal => curVal.truthy && canWrite cfg attrs

/-- The declared type, or the type that the parameter has. -/
def typeOf (v curVal : AttrValue) : Option Value :=
  if (AttrValue.scalar (v.item 1)).truthy then v.item 1 else curVal.item 1

/-- The value as it is sent. -/
def sanitized (v : AttrValue) (type : Option Value) : Option Sanitized :=
  (v.item 0).map fun val =>
    let val := sanitizeParameterValue J parseDate val type
    if type = some (.str (js "xsd:dateTime")) ∧ ¬ cfg.DATETIME_MILLISECONDS then
      val.stripMilliseconds
    else val

/-- What is to be sent for a declared value, if it is not the value that the
parameter has. -/
def setValue (d : DeviceData) (kv : Path × AttrValue) :
    Option (Path × Option Sanitized × Option Value) := do
  let attrs ← d.attributes.get? kv.1
  let curVal ← currentValue cfg attrs
  let type := typeOf kv.2 curVal
  let val := sanitized J parseDate cfg kv.2 type
  if sameValue val (curVal.item 0) ∧ type = curVal.item 1 then none else some (kv.1, val, type)

/-- `attrs` of a parameter that is not there. -/
def vanished (d : DeviceData) (p : Path) : Option Thrown :=
  if (d.attributes.get? p).isSome then none else some .typeError

def setValues : WriteStage := fun x => do
  let (parameterValues, spv) ← takeBatchE (fun kv => vanished x.deviceData kv.1)
    (fun kv => ((x.deviceData.attributes.get? kv.1).bind (currentValue cfg)).isSome)
    (setValue J parseDate cfg x.deviceData) cfg.GPV_BATCH_SIZE x.spv []
  pure ({ x with spv },
    if parameterValues = [] then none else some (.setValues parameterValues))

/-- The attribute as it is to be set: `null` where the parameter has none, or the same. -/
def changed (attrs : Attributes) (a : AttrName) (v : AttrValue) : AttrValue :=
  if held attrs a = none ∨ held attrs a = some v then .null else v

def setAttribute (d : DeviceData) (kv : Path × Spa) : Option (Path × Spa) := do
  let attrs ← d.attributes.get? kv.1
  let v : Spa := ⟨changed attrs .notification kv.2.notification,
    changed attrs .accessList kv.2.accessList⟩
  if v.notification = .null ∧ v.accessList = .null then none else some (kv.1, v)

/-- The attributes of the parameter are looked at. -/
def asks (v : Spa) : Bool := v.notification ≠ .null ∨ v.accessList ≠ .null

def setAttributes : WriteStage := fun x => do
  let (parameterAttributes, spa) ← takeBatchE
    (fun kv => if asks kv.2 then vanished x.deviceData kv.1 else none) (fun _ => true)
    (setAttribute x.deviceData) cfg.GPV_BATCH_SIZE x.spa []
  pure ({ x with spa },
    if parameterAttributes = [] then none else some (.setAttributes parameterAttributes))

end

/-! ## Downloads, reboot and factory reset -/

/-- `value[0]` of a parameter that is in the tree. -/
def storedItem (d : DeviceData) (p : Path) : Option Value :=
  if p ∈ d.paths then
    ((d.attributes.get? p).bind (held · .value)).bind (·.item 0)
  else none

/-- `t <= t2`, which is false without a stored time. -/
def atMost (t : ℚ) : Option Value → Bool
  | some (.num t2) => t ≤ t2
  | _ => false

/-- The download is due and was not started since. -/
def isDue (d : DeviceData) (timestamp : ℚ) (p : Path) : Option Value → Bool
  | some (.num t) => 0 < t ∧ t ≤ timestamp
      ∧ ¬ atMost t (((d.attributes.get? p).bind (held · .value)).bind (·.item 0))
  | _ => false

def download : WriteStage := fun x => .ok (x,
  (x.downloadsDownload.find? fun e => isDue x.deviceData x.timestamp e.1 e.2).map fun e =>
    .download e.1 (storedItem x.deviceData (e.1.dropLast ++ [js "FileType"]))
      (storedItem x.deviceData (e.1.dropLast ++ [js "FileName"]))
      (storedItem x.deviceData (e.1.dropLast ++ [js "TargetFileName"])))

/-- `time > 0 && time <= timestamp && !(t >= time)`. -/
def passed (d : DeviceData) (timestamp : ℚ) (name : JsString) : JsNumber → Bool
  | some (some (some time)) => 0 < time ∧ time ≤ timestamp ∧ ¬ atMost time (storedItem d [name])
  | _ => false

def rebootStage : WriteStage := fun x => .ok <|
  if passed x.deviceData x.timestamp (js "Reboot") x.reboot then
    ({ x with reboot := none }, some .reboot)
  else (x, none)

def factoryResetStage : WriteStage := fun x => .ok <|
  if passed x.deviceData x.timestamp (js "FactoryReset") x.factoryReset then
    ({ x with factoryReset := none }, some .factoryReset)
  else (x, none)

/-! ## The request -/

/-- The stages in turn, until one makes a request. -/
def firstRequest : List WriteStage → WriteStage
  | [], x => .ok (x, none)
  | stage :: stages, x => do
      let (y, request) ← stage x
      match request with
      | some request => pure (y, some request)
      | none => firstRequest stages y

def stages (J : Js) (parseDate : JsString → JsNumber) (cfg : WriteConfig) : List WriteStage :=
  [deleteInstance cfg, createInstance cfg, setValues J parseDate cfg, setAttributes cfg, download,
    rebootStage, factoryResetStage]

def generateSetRpcRequest (J : Js) (parseDate : JsString → JsNumber) (cfg : WriteConfig) :
    WriteStage :=
  firstRequest (stages J parseDate cfg)

/-! ## What a stage does -/

/-- The instances that are to be deleted. -/
def deletions (x : WriteState) : List Path := (x.instancesToDelete.allItems id).map Prod.snd

/-- The instances that are to be created, with their parents. -/
def creations (x : WriteState) : List (Path × Nat × InstanceKeys) :=
  x.instancesToCreate.allItems InstanceSet.set

def deleted : Option WriteRequest → List Path
  | some (.deleteObject inst) => [inst]
  | _ => []

def created : Option WriteRequest → List (Path × Nat × InstanceKeys)
  | some (.addObject param inst) => [(param, inst)]
  | _ => []

def sentValues : Option WriteRequest → List (Path × Option Sanitized × Option Value)
  | some (.setValues parameterList) => parameterList
  | _ => []

def sentAttributes : Option WriteRequest → List (Path × Spa)
  | some (.setAttributes parameterList) => parameterList
  | _ => []

def reboots : Option WriteRequest → Nat
  | some .reboot => 1
  | _ => 0

def factoryResets : Option WriteRequest → Nat
  | some .factoryReset => 1
  | _ => 0

/-- A time is declared. -/
def declaredTimes (time : JsNumber) : Nat := if time = none then 0 else 1

section

variable (J : Js) (parseDate : JsString → JsNumber) (cfg : WriteConfig)

/-- What is to be sent goes from `x` into the request or stays in `y`. -/
structure Sends (x y : WriteState) (r : Option WriteRequest) : Prop where
  deviceData : y.deviceData = x.deviceData
  deletions : x.deletions.Perm (deleted r ++ y.deletions)
  deleted : ∀ p ∈ deleted r, writable cfg x.deviceData p = true
  creations : x.creations.Perm (created r ++ y.creations)
  created : ∀ e ∈ created r, writable cfg x.deviceData e.1 = true
  values : Takes (setValue J parseDate cfg x.deviceData) x.spv y.spv (sentValues r)
  values_length : (sentValues r).length ≤ max 1 ⌈cfg.GPV_BATCH_SIZE⌉₊
  attributes : Takes (setAttribute x.deviceData) x.spa y.spa (sentAttributes r)
  attributes_length : (sentAttributes r).length ≤ max 1 ⌈cfg.GPV_BATCH_SIZE⌉₊
  reboot : declaredTimes y.reboot + reboots r ≤ declaredTimes x.reboot
  factoryReset : declaredTimes y.factoryReset + factoryResets r ≤ declaredTimes x.factoryReset
  nonempty : ∀ request ∈ r, sentValues r ≠ [] ∨ sentAttributes r ≠ [] ∨ WriteState.deleted r ≠ []
    ∨ WriteState.created r ≠ [] ∨ reboots r = 1 ∨ factoryResets r = 1
    ∨ ∃ p a b c, request = .download p a b c

end

theorem Sends.none (J : Js) (parseDate : JsString → JsNumber) (cfg : WriteConfig)
    (x : WriteState) : Sends J parseDate cfg x x none where
  deviceData := rfl
  deletions := .refl _
  deleted := by simp [WriteState.deleted]
  creations := .refl _
  created := by simp [WriteState.created]
  values := .refl _ _
  values_length := Nat.zero_le _
  attributes := .refl _ _
  attributes_length := Nat.zero_le _
  reboot := Nat.le_refl _
  factoryReset := Nat.le_refl _
  nonempty := by simp

variable {J : Js} {parseDate : JsString → JsNumber} {cfg : WriteConfig}

/-- A stage that makes no request is followed by the next. -/
theorem Sends.trans {x y z : WriteState} {r : Option WriteRequest}
    (h : Sends J parseDate cfg x y Option.none) (h' : Sends J parseDate cfg y z r) :
    Sends J parseDate cfg x z r where
  deviceData := h'.deviceData.trans h.deviceData
  deletions := h.deletions.trans h'.deletions
  deleted := h.deviceData ▸ h'.deleted
  creations := h.creations.trans h'.creations
  created := h.deviceData ▸ h'.created
  values := h.values.trans (h.deviceData ▸ h'.values)
  values_length := h'.values_length
  attributes := h.attributes.trans (h.deviceData ▸ h'.attributes)
  attributes_length := h'.attributes_length
  reboot := h'.reboot.trans h.reboot
  factoryReset := h'.factoryReset.trans h.factoryReset
  nonempty := h'.nonempty

theorem sends_deleteInstance {x y : WriteState} {r : Option WriteRequest}
    (h : deleteInstance cfg x = .ok (y, r)) : Sends J parseDate cfg x y r := by
  rw [deleteInstance] at h
  cases hfind : findDelete cfg x.deviceData x.instancesToDelete.entries with
  | none =>
      rw [hfind] at h
      cases h
      exact .none _ _ _ x
  | some found =>
      obtain ⟨parent, instances, inst⟩ := found
      rw [hfind] at h
      cases h
      rw [findDelete] at hfind
      obtain ⟨⟨k, l⟩, hmem, hsome⟩ := List.exists_of_findSome?_eq_some hfind
      obtain ⟨i, hi, heq⟩ := Option.map_eq_some_iff.mp hsome
      cases heq
      have hget : x.instancesToDelete.get? k = some l := InsMap.get?_eq_some.mpr hmem
      have hinst : inst ∈ l := List.mem_of_find?_eq_some hi
      exact { Sends.none J parseDate cfg x with
        deletions := ((InsMap.allItems_set hget (List.perm_cons_erase hinst)).map Prod.snd)
        deleted := by
          simp only [WriteState.deleted, List.mem_singleton, forall_eq]
          exact List.find?_some hi
        nonempty := by simp [WriteState.deleted] }

/-- Deleting the first instance leaves the others. -/
theorem delete_head {s : InstanceSet} {inst : Nat × InstanceKeys} (h : s.set.head? = some inst) :
    inst :: (s.delete inst.1).set = s.set := by
  obtain ⟨rest, hset⟩ := List.head?_eq_some_iff.mp h
  have hnodup := s.nodup
  rw [hset, List.map_cons, List.nodup_cons] at hnodup
  show inst :: s.set.filter (fun i => i.1 ≠ inst.1) = s.set
  rw [hset, List.filter_cons_of_neg (by simp)]
  refine congrArg (inst :: ·) (List.filter_eq_self.mpr fun i hi => decide_eq_true fun heq => ?_)
  exact hnodup.1 (heq ▸ List.mem_map_of_mem hi)

theorem sends_createInstance {x y : WriteState} {r : Option WriteRequest}
    (h : createInstance cfg x = .ok (y, r)) : Sends J parseDate cfg x y r := by
  rw [createInstance] at h
  cases hfind : findCreate cfg x.deviceData x.instancesToCreate.entries with
  | none =>
      rw [hfind] at h
      cases h
      exact .none _ _ _ x
  | some found =>
      obtain ⟨parent, instances, inst⟩ := found
      rw [hfind] at h
      cases h
      rw [findCreate] at hfind
      obtain ⟨⟨k, l⟩, hmem, hsome⟩ := List.exists_of_findSome?_eq_some hfind
      by_cases hwritable : writable cfg x.deviceData k = true
      · rw [if_pos hwritable] at hsome
        obtain ⟨i, hi, heq⟩ := Option.map_eq_some_iff.mp hsome
        cases heq
        have hget : x.instancesToCreate.get? k = some l := InsMap.get?_eq_some.mpr hmem
        have hset : l.set.Perm (inst :: (l.delete inst.1).set) := by
          rw [delete_head hi]
        exact { Sends.none J parseDate cfg x with
          creations := InsMap.allItems_set hget hset
          created := by
            simp only [WriteState.created, List.mem_singleton, forall_eq]
            exact hwritable
          nonempty := by simp [WriteState.created] }
      · rw [if_neg hwritable] at hsome
        cases hsome

/-- The loop of a stage came to its end without an item in error. -/
theorem takeBatchE_bind {ε α β γ : Type} {check : α → Option ε} {counts : α → Bool}
    {wanted : α → Option β} {n : ℚ} {queue : List α} {f : List β × List α → Except ε γ} {c : γ}
    (h : (takeBatchE check counts wanted n queue [] >>= f) = .ok c) :
    f (takeBatch counts wanted n queue []) = .ok c := by
  cases hr : takeBatchE check counts wanted n queue [] with
  | error e => simp [hr, bind, Except.bind] at h
  | ok r =>
      rw [← takeBatchE_eq_ok hr]
      simpa [hr, bind, Except.bind] using h

theorem isSome_currentValue {d : DeviceData} {kv : Path × AttrValue}
    (h : (setValue J parseDate cfg d kv).isSome) :
    ((d.attributes.get? kv.1).bind (currentValue cfg)).isSome = true := by
  rw [setValue] at h
  cases hattrs : d.attributes.get? kv.1 with
  | none => simp [hattrs] at h
  | some attrs =>
      cases hcur : currentValue cfg attrs with
      | none => simp [hattrs, hcur] at h
      | some curVal => simp [hcur]

theorem setValues_spec {x y : WriteState} {r : Option WriteRequest}
    (h : setValues J parseDate cfg x = .ok (y, r)) :
    ∃ sent left, y = { x with spv := left }
      ∧ r = (if sent = [] then none else some (.setValues sent))
      ∧ Takes (setValue J parseDate cfg x.deviceData) x.spv left sent
      ∧ sent.length ≤ max 1 ⌈cfg.GPV_BATCH_SIZE⌉₊
      ∧ (0 < cfg.GPV_BATCH_SIZE → sent = [] → left = []) := by
  have h := takeBatchE_bind h
  obtain ⟨piece, hqueue, hsent, hend, hlength⟩ := takeBatch_spec
    (fun kv => @isSome_currentValue J parseDate cfg x.deviceData kv) cfg.GPV_BATCH_SIZE x.spv []
  generalize takeBatch _ (setValue J parseDate cfg x.deviceData) cfg.GPV_BATCH_SIZE x.spv [] = b
    at h hqueue hsent hend hlength
  cases h
  exact ⟨b.1, b.2, rfl, rfl, ⟨piece, hqueue, hsent⟩, hlength, fun hbatch => left_nil hbatch hend⟩

theorem isSome_true {α β : Type} {f : α → Option β} (a : α) (_ : (f a).isSome) :
    (fun _ : α => true) a = true := rfl

theorem setAttributes_spec {x y : WriteState} {r : Option WriteRequest}
    (h : setAttributes cfg x = .ok (y, r)) :
    ∃ sent left, y = { x with spa := left }
      ∧ r = (if sent = [] then none else some (.setAttributes sent))
      ∧ Takes (setAttribute x.deviceData) x.spa left sent
      ∧ sent.length ≤ max 1 ⌈cfg.GPV_BATCH_SIZE⌉₊
      ∧ (0 < cfg.GPV_BATCH_SIZE → sent = [] → left = []) := by
  have h := takeBatchE_bind h
  obtain ⟨piece, hqueue, hsent, hend, hlength⟩ := takeBatch_spec
    (isSome_true (f := setAttribute x.deviceData)) cfg.GPV_BATCH_SIZE x.spa []
  generalize takeBatch _ (setAttribute x.deviceData) cfg.GPV_BATCH_SIZE x.spa [] = b
    at h hqueue hsent hend hlength
  cases h
  exact ⟨b.1, b.2, rfl, rfl, ⟨piece, hqueue, hsent⟩, hlength, fun hbatch => left_nil hbatch hend⟩

theorem sends_setValues {x y : WriteState} {r : Option WriteRequest}
    (h : setValues J parseDate cfg x = .ok (y, r)) : Sends J parseDate cfg x y r := by
  obtain ⟨sent, left, rfl, rfl, htakes, hlength, -⟩ := setValues_spec h
  by_cases hnil : sent = []
  · subst hnil
    exact { Sends.none J parseDate cfg x with values := htakes }
  · rw [if_neg hnil]
    exact { Sends.none J parseDate cfg x with
      values := htakes
      values_length := hlength
      nonempty := fun _ _ => Or.inl hnil }

theorem sends_setAttributes {x y : WriteState} {r : Option WriteRequest}
    (h : setAttributes cfg x = .ok (y, r)) : Sends J parseDate cfg x y r := by
  obtain ⟨sent, left, rfl, rfl, htakes, hlength, -⟩ := setAttributes_spec h
  by_cases hnil : sent = []
  · subst hnil
    exact { Sends.none J parseDate cfg x with attributes := htakes }
  · rw [if_neg hnil]
    exact { Sends.none J parseDate cfg x with
      attributes := htakes
      attributes_length := hlength
      nonempty := fun _ _ => Or.inr (Or.inl hnil) }

theorem sends_download {x y : WriteState} {r : Option WriteRequest}
    (h : download x = .ok (y, r)) : Sends J parseDate cfg x y r := by
  rw [download] at h
  cases hfind : x.downloadsDownload.find? fun e => isDue x.deviceData x.timestamp e.1 e.2 with
  | none =>
      rw [hfind] at h
      cases h
      exact .none _ _ _ x
  | some e =>
      rw [hfind] at h
      cases h
      exact { Sends.none J parseDate cfg x with nonempty := by simp }

/-- A time that has passed is one. -/
theorem declaredTimes_passed {d : DeviceData} {timestamp : ℚ} {name : JsString} {time : JsNumber}
    (h : passed d timestamp name time = true) : declaredTimes time = 1 := by
  rw [declaredTimes, if_neg]
  rintro rfl
  simp [passed] at h

theorem sends_reboot {x y : WriteState} {r : Option WriteRequest}
    (h : rebootStage x = .ok (y, r)) : Sends J parseDate cfg x y r := by
  rw [rebootStage] at h
  split_ifs at h with hpassed
  · cases h
    exact { Sends.none J parseDate cfg x with
      reboot := (declaredTimes_passed hpassed).ge
      nonempty := by simp [reboots] }
  · cases h
    exact .none _ _ _ x

theorem sends_factoryReset {x y : WriteState} {r : Option WriteRequest}
    (h : factoryResetStage x = .ok (y, r)) : Sends J parseDate cfg x y r := by
  rw [factoryResetStage] at h
  split_ifs at h with hpassed
  · cases h
    exact { Sends.none J parseDate cfg x with
      factoryReset := (declaredTimes_passed hpassed).ge
      nonempty := by simp [factoryResets] }
  · cases h
    exact .none _ _ _ x

theorem sends_firstRequest {l : List WriteStage}
    (hl : ∀ stage ∈ l, ∀ x y r, stage x = .ok (y, r) → Sends J parseDate cfg x y r)
    {x y : WriteState} {r : Option WriteRequest} (h : firstRequest l x = .ok (y, r)) :
    Sends J parseDate cfg x y r := by
  induction l generalizing x with
  | nil =>
      cases h
      exact .none _ _ _ _
  | cons stage l ih =>
      rw [firstRequest] at h
      cases hstage : stage x with
      | error e => simp [hstage, bind, Except.bind] at h
      | ok z =>
          obtain ⟨z, request⟩ := z
          have hfirst := hl stage List.mem_cons_self x z request hstage
          simp only [hstage, bind, Except.bind] at h
          cases request with
          | some request =>
              cases h
              exact hfirst
          | none => exact hfirst.trans (ih (fun s hs => hl s (List.mem_cons_of_mem _ hs)) h)

/-! ## The order of the stages -/

/-- A stage made the request, or the stages after it did. -/
theorem firstRequest_cons {stage : WriteStage} {l : List WriteStage} {x y : WriteState}
    {r : Option WriteRequest} (h : firstRequest (stage :: l) x = .ok (y, r)) :
    (stage x = .ok (y, r) ∧ r ≠ none) ∨ ∃ z, stage x = .ok (z, none)
      ∧ firstRequest l z = .ok (y, r) := by
  rw [firstRequest] at h
  cases hstage : stage x with
  | error e => simp [hstage, bind, Except.bind] at h
  | ok z =>
      obtain ⟨z, request⟩ := z
      simp only [hstage, bind, Except.bind] at h
      cases request with
      | some request =>
          cases h
          exact Or.inl ⟨rfl, by simp⟩
      | none => exact Or.inr ⟨z, rfl, h⟩

theorem deleteInstance_none {x y : WriteState} (h : deleteInstance cfg x = .ok (y, none)) :
    ∀ p ∈ x.deletions, writable cfg x.deviceData p = false := by
  rw [deleteInstance] at h
  cases hfind : findDelete cfg x.deviceData x.instancesToDelete.entries with
  | some found => simp [hfind] at h
  | none =>
      intro p hp
      obtain ⟨⟨k, q⟩, hmem, rfl⟩ := List.mem_map.mp hp
      obtain ⟨e, he, hq⟩ := List.mem_flatMap.mp hmem
      obtain ⟨i, hi, heq⟩ := List.mem_map.mp hq
      obtain ⟨-, rfl⟩ := Prod.mk.inj heq
      rw [findDelete, List.findSome?_eq_none_iff] at hfind
      have hnone := Option.map_eq_none_iff.mp (hfind e he)
      exact Bool.eq_false_iff.mpr (List.find?_eq_none.mp hnone i hi)

theorem deleteInstance_some {x y : WriteState} {r : Option WriteRequest}
    (h : deleteInstance cfg x = .ok (y, r)) (hr : r ≠ none) : deleted r ≠ [] := by
  rw [deleteInstance] at h
  cases hfind : findDelete cfg x.deviceData x.instancesToDelete.entries with
  | none =>
      rw [hfind] at h
      cases h
      exact absurd rfl hr
  | some found =>
      rw [hfind] at h
      cases h
      simp [deleted]

theorem createInstance_none {x y : WriteState} (h : createInstance cfg x = .ok (y, none)) :
    ∀ e ∈ x.creations, writable cfg x.deviceData e.1 = false := by
  rw [createInstance] at h
  cases hfind : findCreate cfg x.deviceData x.instancesToCreate.entries with
  | some found => simp [hfind] at h
  | none =>
      intro c hmem
      obtain ⟨e, he, hi⟩ := List.mem_flatMap.mp hmem
      obtain ⟨i, hi', rfl⟩ := List.mem_map.mp hi
      rw [findCreate, List.findSome?_eq_none_iff] at hfind
      refine Bool.eq_false_iff.mpr fun hwritable => ?_
      have hnone := hfind e he
      rw [if_pos hwritable, Option.map_eq_none_iff, List.head?_eq_none_iff] at hnone
      exact List.ne_nil_of_mem hi' hnone

theorem createInstance_some {x y : WriteState} {r : Option WriteRequest}
    (h : createInstance cfg x = .ok (y, r)) (hr : r ≠ none) : created r ≠ [] := by
  rw [createInstance] at h
  cases hfind : findCreate cfg x.deviceData x.instancesToCreate.entries with
  | none =>
      rw [hfind] at h
      cases h
      exact absurd rfl hr
  | some found =>
      rw [hfind] at h
      cases h
      simp [created]

theorem setValues_none (hbatch : 0 < cfg.GPV_BATCH_SIZE) {x y : WriteState}
    (h : setValues J parseDate cfg x = .ok (y, none)) : y.spv = [] := by
  obtain ⟨sent, left, rfl, hr, -, -, hend⟩ := setValues_spec h
  refine hend hbatch ?_
  by_contra hne
  rw [if_neg hne] at hr
  cases hr

theorem setValues_some {x y : WriteState} {r : Option WriteRequest}
    (h : setValues J parseDate cfg x = .ok (y, r)) (hr : r ≠ none) : sentValues r ≠ [] := by
  obtain ⟨sent, left, -, rfl, -⟩ := setValues_spec h
  by_cases hnil : sent = []
  · exact absurd (if_pos hnil) hr
  · rw [if_neg hnil]
    exact hnil

theorem setAttributes_none (hbatch : 0 < cfg.GPV_BATCH_SIZE) {x y : WriteState}
    (h : setAttributes cfg x = .ok (y, none)) : y.spa = [] := by
  obtain ⟨sent, left, rfl, hr, -, -, hend⟩ := setAttributes_spec h
  refine hend hbatch ?_
  by_contra hne
  rw [if_neg hne] at hr
  cases hr

theorem setAttributes_some {x y : WriteState} {r : Option WriteRequest}
    (h : setAttributes cfg x = .ok (y, r)) (hr : r ≠ none) : sentAttributes r ≠ [] := by
  obtain ⟨sent, left, -, rfl, -⟩ := setAttributes_spec h
  by_cases hnil : sent = []
  · exact absurd (if_pos hnil) hr
  · rw [if_neg hnil]
    exact hnil

/-- What is left was there before. -/
structure Left (x y : WriteState) : Prop where
  deletions : ∀ p ∈ y.deletions, p ∈ x.deletions
  creations : ∀ e ∈ y.creations, e ∈ x.creations
  spv : y.spv.Sublist x.spv
  spa : y.spa.Sublist x.spa

theorem Left.refl (x : WriteState) : Left x x := ⟨fun _ => id, fun _ => id, .refl _, .refl _⟩

theorem Left.trans {x y z : WriteState} (h : Left x y) (h' : Left y z) : Left x z where
  deletions p hp := h.deletions p (h'.deletions p hp)
  creations e he := h.creations e (h'.creations e he)
  spv := h'.spv.trans h.spv
  spa := h'.spa.trans h.spa

theorem Sends.left {x y : WriteState} {r : Option WriteRequest}
    (h : Sends J parseDate cfg x y r) : Left x y where
  deletions _ hp := h.deletions.mem_iff.mpr (List.mem_append_right _ hp)
  creations _ he := h.creations.mem_iff.mpr (List.mem_append_right _ he)
  spv := h.values.sublist
  spa := h.attributes.sublist

/-- What is left when a request is made has its reason: the stages before the one that made it
found nothing to do. -/
structure InOrder (cfg : WriteConfig) (d : DeviceData) (r : Option WriteRequest)
    (z : WriteState) : Prop where
  deletions : deleted r = [] → ∀ p ∈ z.deletions, writable cfg d p = false
  creations : deleted r = [] → created r = [] → ∀ e ∈ z.creations, writable cfg d e.1 = false
  values : deleted r = [] → created r = [] → sentValues r = [] → z.spv = []
  attributes : deleted r = [] → created r = [] → sentValues r = [] → sentAttributes r = [] →
    z.spa = []

theorem InOrder.left {d : DeviceData} {r : Option WriteRequest} {y z : WriteState}
    (h : InOrder cfg d r y) (hleft : Left y z) : InOrder cfg d r z where
  deletions h1 p hp := h.deletions h1 p (hleft.deletions p hp)
  creations h1 h2 e he := h.creations h1 h2 e (hleft.creations e he)
  values h1 h2 h3 := List.sublist_nil.mp (h.values h1 h2 h3 ▸ hleft.spv)
  attributes h1 h2 h3 h4 := List.sublist_nil.mp (h.attributes h1 h2 h3 h4 ▸ hleft.spa)

theorem sends_stages {stage : WriteStage} (hstage : stage ∈ stages J parseDate cfg)
    {x y : WriteState} {r : Option WriteRequest} (h : stage x = .ok (y, r)) :
    Sends J parseDate cfg x y r := by
  simp only [stages, List.mem_cons, List.not_mem_nil, or_false] at hstage
  rcases hstage with rfl | rfl | rfl | rfl | rfl | rfl | rfl
  · exact sends_deleteInstance h
  · exact sends_createInstance h
  · exact sends_setValues h
  · exact sends_setAttributes h
  · exact sends_download h
  · exact sends_reboot h
  · exact sends_factoryReset h

theorem sends_generate {x y : WriteState} {r : Option WriteRequest}
    (h : generateSetRpcRequest J parseDate cfg x = .ok (y, r)) : Sends J parseDate cfg x y r :=
  sends_firstRequest (fun _ hstage _ _ _ => sends_stages hstage) h

theorem inOrder_generate (hbatch : 0 < cfg.GPV_BATCH_SIZE) {x y : WriteState}
    {r : Option WriteRequest} (h : generateSetRpcRequest J parseDate cfg x = .ok (y, r)) :
    InOrder cfg x.deviceData r y := by
  have hleft := (sends_generate h).left
  have hsends : ∀ {l z}, l ⊆ stages J parseDate cfg → firstRequest l z = .ok (y, r) → Left z y :=
    fun hl hz => (sends_firstRequest (fun stage hs _ _ _ => sends_stages (hl hs)) hz).left
  rw [generateSetRpcRequest, stages] at h
  rcases firstRequest_cons h with ⟨h1, hr⟩ | ⟨x1, h1, h⟩
  · have hne := deleteInstance_some h1 hr
    exact ⟨fun h => absurd h hne, fun h => absurd h hne, fun h => absurd h hne,
      fun h => absurd h hne⟩
  have hdata1 := (sends_deleteInstance h1 : Sends J parseDate cfg x x1 none).deviceData
  have hdeletions : ∀ p ∈ y.deletions, writable cfg x.deviceData p = false := fun p hp =>
    deleteInstance_none h1 p (hleft.deletions p hp)
  rcases firstRequest_cons h with ⟨h2, hr⟩ | ⟨x2, h2, h'⟩
  · have hne := createInstance_some h2 hr
    exact ⟨fun _ => hdeletions, fun _ h => absurd h hne, fun _ h => absurd h hne,
      fun _ h => absurd h hne⟩
  have hcreations : ∀ e ∈ y.creations, writable cfg x.deviceData e.1 = false := fun e he =>
    hdata1 ▸ createInstance_none h2 e
      ((hsends (List.subset_cons_self _ _) h).creations e he)
  rcases firstRequest_cons h' with ⟨h3, hr⟩ | ⟨x3, h3, h⟩
  · have hne := setValues_some h3 hr
    exact ⟨fun _ => hdeletions, fun _ _ => hcreations, fun _ _ h => absurd h hne,
      fun _ _ h => absurd h hne⟩
  have hspv : y.spv = [] := List.sublist_nil.mp (setValues_none hbatch h3 ▸ (hsends (by
    simp [stages]) h).spv)
  rcases firstRequest_cons h with ⟨h4, hr⟩ | ⟨x4, h4, h⟩
  · have hne := setAttributes_some h4 hr
    exact ⟨fun _ => hdeletions, fun _ _ => hcreations, fun _ _ _ => hspv,
      fun _ _ _ h => absurd h hne⟩
  have hspa : y.spa = [] := List.sublist_nil.mp (setAttributes_none hbatch h4 ▸ (hsends (by
    simp [stages]) h).spa)
  exact ⟨fun _ => hdeletions, fun _ _ => hcreations, fun _ _ _ => hspv, fun _ _ _ _ => hspa⟩

/-! ## The phase -/

/-- Between two calls an answer changes the device data. -/
def withData (x : WriteState) (d : DeviceData) : WriteState := { x with deviceData := d }

/-- Calls in a row, each with the device data it was made at. -/
inductive Writes (J : Js) (parseDate : JsString → JsNumber) (cfg : WriteConfig) :
    WriteState → List (DeviceData × Option WriteRequest) → WriteState → Prop where
  | refl (x : WriteState) : Writes J parseDate cfg x [] x
  | call {x y z : WriteState} {r : Option WriteRequest} (d : DeviceData)
      {calls : List (DeviceData × Option WriteRequest)}
      (hcall : generateSetRpcRequest J parseDate cfg x = .ok (y, r))
      (rest : Writes J parseDate cfg (y.withData d) calls z) :
      Writes J parseDate cfg x ((x.deviceData, r) :: calls) z

/-- What is still to be sent, downloads apart. -/
def pending (x : WriteState) : Nat :=
  x.deletions.length + x.creations.length + x.spv.length + x.spa.length
    + declaredTimes x.reboot + declaredTimes x.factoryReset

/-- The requests that are no downloads. -/
def takes : Option WriteRequest → Nat
  | none => 0
  | some (.download ..) => 0
  | some _ => 1

theorem Sends.pending_le {x y : WriteState} {r : Option WriteRequest}
    (h : Sends J parseDate cfg x y r) : y.pending + takes r ≤ x.pending := by
  have hdeletions := h.deletions.length_eq
  have hcreations := h.creations.length_eq
  have hvalues := h.values.length_le
  have hattributes := h.attributes.length_le
  have hreboot := h.reboot
  have hfactoryReset := h.factoryReset
  rw [List.length_append] at hdeletions hcreations
  rw [pending, pending]
  cases r with
  | none =>
      rw [takes]
      omega
  | some request =>
      have hone : takes (some request) ≤ 1 := by cases request <;> simp [takes]
      rcases h.nonempty request rfl with hne | hne | hne | hne | hne | hne | ⟨p, a, b, c, rfl⟩
      · have := h.values.length_lt hne
        omega
      · have := h.attributes.length_lt hne
        omega
      · have := List.length_pos_iff.mpr hne
        omega
      · have := List.length_pos_iff.mpr hne
        omega
      · omega
      · omega
      · rw [takes]
        omega

theorem Writes.left {x z : WriteState} {calls : List (DeviceData × Option WriteRequest)}
    (h : Writes J parseDate cfg x calls z) : Left x z := by
  induction h with
  | refl x => exact .refl x
  | call d hcall rest ih =>
      exact (sends_generate hcall).left.trans ⟨ih.deletions, ih.creations, ih.spv, ih.spa⟩

theorem Writes.pending_le {x z : WriteState} {calls : List (DeviceData × Option WriteRequest)}
    (h : Writes J parseDate cfg x calls z) :
    (calls.map fun call => takes call.2).sum + z.pending ≤ x.pending := by
  induction h with
  | refl x => simp
  | @call x y z r d calls hcall rest ih =>
      have hstep := (sends_generate hcall).pending_le
      have hsame : (y.withData d).pending = y.pending := rfl
      simp only [List.map_cons, List.sum_cons]
      omega

/-- Deletions and creations are sent or still planned. -/
theorem Writes.planned {x z : WriteState} {calls : List (DeviceData × Option WriteRequest)}
    (h : Writes J parseDate cfg x calls z) :
    x.deletions.Perm (calls.flatMap (deleted ·.2) ++ z.deletions)
      ∧ x.creations.Perm (calls.flatMap (created ·.2) ++ z.creations) := by
  induction h with
  | refl x => exact ⟨.refl _, .refl _⟩
  | call d hcall rest ih =>
      have hstep := sends_generate hcall
      rw [List.flatMap_cons, List.flatMap_cons, List.append_assoc, List.append_assoc]
      exact ⟨hstep.deletions.trans (ih.1.append_left _), hstep.creations.trans (ih.2.append_left _)⟩

theorem Writes.takesAll {x z : WriteState} {calls : List (DeviceData × Option WriteRequest)}
    (h : Writes J parseDate cfg x calls z) :
    TakesAll (setValue J parseDate cfg) sentValues x.spv z.spv calls
      ∧ TakesAll setAttribute sentAttributes x.spa z.spa calls := by
  induction h with
  | refl x => exact ⟨.nil _ _ _, .nil _ _ _⟩
  | call d hcall rest ih =>
      have hstep := sends_generate hcall
      exact ⟨.cons hstep.values ih.1, .cons hstep.attributes ih.2⟩

/-- What a call sends is writable, and fits in a batch; what was left at the end had been left
for its reason. -/
structure WritesWell (cfg : WriteConfig) (z : WriteState)
    (call : DeviceData × Option WriteRequest) : Prop where
  deleted : ∀ p ∈ deleted call.2, writable cfg call.1 p = true
  created : ∀ e ∈ created call.2, writable cfg call.1 e.1 = true
  values_length : (sentValues call.2).length ≤ max 1 ⌈cfg.GPV_BATCH_SIZE⌉₊
  attributes_length : (sentAttributes call.2).length ≤ max 1 ⌈cfg.GPV_BATCH_SIZE⌉₊
  inOrder : InOrder cfg call.1 call.2 z

theorem Writes.well (hbatch : 0 < cfg.GPV_BATCH_SIZE) {x z : WriteState}
    {calls : List (DeviceData × Option WriteRequest)} (h : Writes J parseDate cfg x calls z) :
    ∀ call ∈ calls, WritesWell cfg z call := by
  induction h with
  | refl x => simp
  | @call x y z r d calls hcall rest ih =>
      have hstep := sends_generate hcall
      have hleft : Left y z := ⟨rest.left.deletions, rest.left.creations, rest.left.spv,
        rest.left.spa⟩
      exact List.forall_mem_cons.mpr ⟨⟨hstep.deleted, hstep.created, hstep.values_length,
        hstep.attributes_length, (inOrder_generate hbatch hcall).left hleft⟩, ih⟩

theorem Writes.restartsOnce {x z : WriteState} {calls : List (DeviceData × Option WriteRequest)}
    (h : Writes J parseDate cfg x calls z) :
    (calls.map fun call => reboots call.2).sum + declaredTimes z.reboot ≤ declaredTimes x.reboot
      ∧ (calls.map fun call => factoryResets call.2).sum + declaredTimes z.factoryReset
        ≤ declaredTimes x.factoryReset := by
  induction h with
  | refl x => simp
  | @call x y z r d calls hcall rest ih =>
      obtain ⟨hreboot, hfactoryReset⟩ := ih
      have hstep := (sends_generate hcall).reboot
      have hstep' := (sends_generate hcall).factoryReset
      have hsame : declaredTimes (y.withData d).reboot = declaredTimes y.reboot := rfl
      have hsame' : declaredTimes (y.withData d).factoryReset = declaredTimes y.factoryReset := rfl
      simp only [List.map_cons, List.sum_cons]
      omega

theorem declaredTimes_le_one (time : JsNumber) : declaredTimes time ≤ 1 := by
  rw [declaredTimes]
  split_ifs <;> simp

/-! ## A call returns -/

/-- The parameters that are to be set are there. -/
structure Attributed (x : WriteState) : Prop where
  spv : ∀ kv ∈ x.spv, (x.deviceData.attributes.get? kv.1).isSome = true
  spa : ∀ kv ∈ x.spa, (x.deviceData.attributes.get? kv.1).isSome = true

theorem vanished_eq_none {d : DeviceData} {p : Path} (h : (d.attributes.get? p).isSome = true) :
    vanished d p = none := if_pos h

theorem takeBatchE_isOk {ε α β γ : Type} {check : α → Option ε} (counts : α → Bool)
    (wanted : α → Option β) (n : ℚ) {queue : List α} (h : ∀ a ∈ queue, check a = none)
    (f : List β × List α → γ) :
    (takeBatchE check counts wanted n queue [] >>= fun r => pure (f r)) =
      .ok (f (takeBatch counts wanted n queue [])) := by
  rw [takeBatchE_ok counts wanted n h]
  rfl

theorem isOk_stages {stage : WriteStage} (hstage : stage ∈ stages J parseDate cfg)
    {x : WriteState} (hx : x.Attributed) : ∃ y r, stage x = .ok (y, r) := by
  simp only [stages, List.mem_cons, List.not_mem_nil, or_false] at hstage
  rcases hstage with rfl | rfl | rfl | rfl | rfl | rfl | rfl
  · exact ⟨_, _, rfl⟩
  · exact ⟨_, _, rfl⟩
  · exact ⟨_, _, takeBatchE_isOk _ _ _ (fun kv hkv => vanished_eq_none (hx.spv kv hkv)) _⟩
  · refine ⟨_, _, takeBatchE_isOk _ _ _ (fun kv hkv => ?_) _⟩
    split_ifs
    · exact vanished_eq_none (hx.spa kv hkv)
    · rfl
  · exact ⟨_, _, rfl⟩
  · exact ⟨_, _, rfl⟩
  · exact ⟨_, _, rfl⟩

theorem Attributed.sends {x y : WriteState} {r : Option WriteRequest} (hx : x.Attributed)
    (h : Sends J parseDate cfg x y r) : y.Attributed where
  spv kv hkv := h.deviceData ▸ hx.spv kv (h.left.spv.subset hkv)
  spa kv hkv := h.deviceData ▸ hx.spa kv (h.left.spa.subset hkv)

theorem isOk_firstRequest {l : List WriteStage} (hl : l ⊆ stages J parseDate cfg)
    {x : WriteState} (hx : x.Attributed) : ∃ y r, firstRequest l x = .ok (y, r) := by
  induction l generalizing x with
  | nil => exact ⟨_, _, rfl⟩
  | cons stage l ih =>
      have hstage : stage ∈ stages J parseDate cfg := hl List.mem_cons_self
      obtain ⟨y, r, hy⟩ := isOk_stages hstage hx
      simp only [firstRequest, hy, bind, Except.bind]
      cases r with
      | some request => exact ⟨_, _, rfl⟩
      | none =>
          have hrest : l ⊆ stages J parseDate cfg := fun s hs => hl (List.mem_cons_of_mem _ hs)
          exact ih hrest (hx.sends (sends_stages hstage hy))

theorem isOk_generate {x : WriteState} (hx : x.Attributed) :
    ∃ y r, generateSetRpcRequest J parseDate cfg x = .ok (y, r) :=
  isOk_firstRequest (List.Subset.refl _) hx

/-- The write phase, whatever the device answers. Every request but a download takes something
from the sets. Each instance is deleted or created once or is still planned; each declared value
and attribute has one turn, in the order of the sets, and is sent if it can be written and
differs; the device is told once to reboot and once to reset. The phase goes on as long as the
parameters that are to be set are there. -/
theorem Writes.writes_exact (hbatch : 0 < cfg.GPV_BATCH_SIZE) {x z : WriteState}
    {calls : List (DeviceData × Option WriteRequest)} (h : Writes J parseDate cfg x calls z) :
    (calls.map fun call => takes call.2).sum + z.pending ≤ x.pending
      ∧ x.deletions.Perm (calls.flatMap (deleted ·.2) ++ z.deletions)
      ∧ x.creations.Perm (calls.flatMap (created ·.2) ++ z.creations)
      ∧ TakesAll (setValue J parseDate cfg) sentValues x.spv z.spv calls
      ∧ TakesAll setAttribute sentAttributes x.spa z.spa calls
      ∧ (∀ call ∈ calls, WritesWell cfg z call)
      ∧ (calls.map fun call => reboots call.2).sum ≤ 1
      ∧ (calls.map fun call => factoryResets call.2).sum ≤ 1
      ∧ (z.Attributed → ∃ y r, generateSetRpcRequest J parseDate cfg z = .ok (y, r)) := by
  obtain ⟨hreboot, hfactoryReset⟩ := h.restartsOnce
  have hone := declaredTimes_le_one x.reboot
  have hone' := declaredTimes_le_one x.factoryReset
  exact ⟨h.pending_le, h.planned.1, h.planned.2, h.takesAll.1, h.takesAll.2, h.well hbatch,
    by omega, by omega, isOk_generate⟩

/-- A parameter with the value `a` that is to be `b`. -/
def oneValue : WriteState where
  deviceData := { initDeviceData with
    attributes := InsMap.empty.set [js "Name"] fun a =>
      if a = .value then some (1, .array [some (.str (js "a")), some (.str (js "xsd:string"))])
      else if a = .writable then some (1, .num 1) else none }
  timestamp := 1
  instancesToDelete := .empty
  instancesToCreate := .empty
  spv := [([js "Name"], .array [some (.str (js "b"))])]
  spa := []
  downloadsDownload := []
  reboot := none
  factoryReset := none

/-- The value is sent with the type of the parameter. -/
theorem writes_oneValue : ∃ z, Writes idleJs (fun _ => none) {} oneValue
    [(oneValue.deviceData, some (.setValues [([js "Name"], some (.text (js "b")),
      some (.str (js "xsd:string")))]))] z :=
  ⟨_, .call oneValue.deviceData rfl (.refl _)⟩

theorem Writes.writes_exact_oneValue : ∃ z : WriteState, z.pending + 1 ≤ oneValue.pending := by
  obtain ⟨z, h⟩ := writes_oneValue
  refine ⟨z, ?_⟩
  have hpending := (Writes.writes_exact (by decide) h).1
  simp only [List.map_cons, List.map_nil, List.sum_cons, List.sum_nil, takes] at hpending
  omega

/-- The type that is sent for a declared value is sent again to a parameter that has it. -/
theorem typeOf_sent (v curVal : AttrValue) (stored : Option Value) :
    typeOf v (.array [stored, typeOf v curVal]) = typeOf v curVal := by
  by_cases h : (AttrValue.scalar (v.item 1)).truthy = true
  · rw [typeOf, if_pos h, typeOf, if_pos h]
  · rw [typeOf, if_neg h]
    rfl

/-- A value that is stored as it was sent is not sent again for the same declaration. -/
theorem setValue_stored {d d' : DeviceData} {kv : Path × AttrValue} {attrs : Attributes}
    {sent : Path × Option Sanitized × Option Value} {stored : Option Value}
    (h : setValue J parseDate cfg d kv = some sent) (hattrs : d'.attributes.get? kv.1 = some attrs)
    (hvalue : held attrs .value = some (.array [stored, sent.2.2]))
    (hstored : sameValue sent.2.1 stored = true) :
    setValue J parseDate cfg d' kv = none := by
  rw [setValue] at h
  obtain ⟨attrs₀, -, h⟩ := Option.bind_eq_some_iff.mp h
  obtain ⟨curVal, -, h⟩ := Option.bind_eq_some_iff.mp h
  dsimp only at h
  split_ifs at h
  obtain rfl := Option.some.inj h
  have hcurrent : currentValue cfg attrs = none
      ∨ currentValue cfg attrs = some (.array [stored, typeOf kv.2 curVal]) := by
    rw [currentValue, hvalue]
    by_cases hwrite : canWrite cfg attrs = true
    · exact Or.inr (by simp [hwrite, AttrValue.truthy])
    · exact Or.inl (by simp [hwrite])
  rw [setValue, hattrs]
  rcases hcurrent with hnone | hsome
  · simp [hnone]
  · simp only [Option.bind_eq_bind, Option.bind_some, hsome, typeOf_sent]
    exact if_pos ⟨hstored, rfl⟩

end WriteState

end GenieAcs
