import GenieAcs.CwmpFaults
import GenieAcs.DeviceValues

/-!
# Downloads

A CPE either completes a download at once, which its response says, or later, in
a session of its own. Both ways record the download in six parameters below
`Downloads.<instance>`; in between, what is to be recorded is an operation of
the session.
-/

namespace GenieAcs

/-! ## Requests and operations -/

/-- A fragment that names an instance. -/
def Instance := { f : JsString // f ≠ star }

structure OperationArgs where
  inst : Instance
  fileType : Option Value
  fileName : Option Value
  targetFileName : Option Value

/-- What is stored of a download until the transfer is complete. -/
structure Operation (P : Type) where
  timestamp : Nat
  provisions : List P
  channels : InsMap Channel Mask
  retries : InsMap Channel Nat
  args : OperationArgs

/-- The request; a missing attribute gives `none`. -/
structure Download where
  commandKey : JsString
  inst : Instance
  fileType : Option Value
  fileName : Option Value
  targetFileName : Option Value

structure DownloadResponse where
  status : Nat
  startTime : ℚ
  completeTime : ℚ

structure FaultStruct where
  faultCode : String
  faultString : String

structure TransferCompleteRequest where
  commandKey : JsString
  faultStruct : Option FaultStruct
  startTime : ℚ
  completeTime : ℚ

/-- What a session context has on its device and on downloads. -/
structure DeviceSession (P : Type) extends SessionContext P where
  iteration : Nat
  deviceData : DeviceData
  operations : InsMap JsString (Operation P)
  operationsTouched : List JsString

/-- The parameters that record a download. -/
inductive DownloadParameter where
  | lastDownload | lastFileType | lastFileName | lastTargetFileName | startTime | completeTime
  deriving DecidableEq

namespace DownloadParameter

def all : List DownloadParameter :=
  [lastDownload, lastFileType, lastFileName, lastTargetFileName, startTime, completeTime]

theorem mem_all (k : DownloadParameter) : k ∈ all := by
  cases k <;> simp [all]

def name : DownloadParameter → JsString
  | lastDownload => js "LastDownload"
  | lastFileType => js "LastFileType"
  | lastFileName => js "LastFileName"
  | lastTargetFileName => js "LastTargetFileName"
  | startTime => js "StartTime"
  | completeTime => js "CompleteTime"

end DownloadParameter

/-- `Downloads.<instance>.<name>`. -/
def downloadPath (inst : Instance) (name : JsString) : Path := [js "Downloads", inst.1, name]

/-- `[value, "xsd:string"]`. -/
def xsdString (value : Option Value) : AttrValue := .array [value, some (.str (js "xsd:string"))]

/-- `[value, "xsd:dateTime"]`. -/
def xsdDateTime (value : ℚ) : AttrValue :=
  .array [some (.num value), some (.str (js "xsd:dateTime"))]

/-- The parameters of an instance, with values. -/
def downloadRecord (inst : Instance) (values : DownloadParameter → AttrValue) :
    List (Path × AttrValue) :=
  DownloadParameter.all.map fun k => (downloadPath inst k.name, values k)

namespace DeviceSession

/-! ## Responses and transfers -/

variable {P : Type} (s : DeviceSession P)

/-- `sessionContext.timestamp + sessionContext.iteration + 1`. -/
def writeTime : Timestamp := (s.timestamp + s.iteration + 1 : Nat)

/-- The values that a `DownloadResponse` with status 0 is recorded with. -/
def responseValues (rpcReq : Download) (rpcRes : DownloadResponse) : DownloadParameter → AttrValue
  | .lastDownload => xsdDateTime s.timestamp
  | .lastFileType => xsdString rpcReq.fileType
  | .lastFileName => xsdString rpcReq.fileType
  | .lastTargetFileName => xsdString rpcReq.fileType
  | .startTime => xsdDateTime rpcRes.startTime
  | .completeTime => xsdDateTime rpcRes.completeTime

/-- The operation that a `DownloadResponse` with another status leaves. -/
def operationOf (rpcReq : Download) : Operation P where
  timestamp := s.timestamp
  provisions := s.provisioning.provisions
  channels := s.provisioning.channels
  retries := s.provisioning.channels.keys.foldl (fun retries channel =>
    match s.retries.get? channel with
    | some n => retries.set channel n
    | none => retries) .empty
  args := ⟨rpcReq.inst, rpcReq.fileType, rpcReq.fileName, rpcReq.targetFileName⟩

def touchOperation (commandKey : JsString) : List JsString :=
  if commandKey ∈ s.operationsTouched then s.operationsTouched
  else s.operationsTouched ++ [commandKey]

/-- The branch of `rpcResponse` for a `DownloadResponse`, with the clears at its
end. -/
def downloadResponse (rpcReq : Download) (rpcRes : DownloadResponse) : DeviceSession P :=
  let downloaded := (downloadPath rpcReq.inst (js "Download"), xsdDateTime s.timestamp)
  if rpcRes.status = 0 then
    { s with deviceData := (DeviceData.valueBatch s.writeTime (downloaded ::
        downloadRecord rpcReq.inst (s.responseValues rpcReq rpcRes))).run s.deviceData }
  else
    { s with
      deviceData := (DeviceData.valueBatch s.writeTime [downloaded]).run s.deviceData
      operations := s.operations.set rpcReq.commandKey (s.operationOf rpcReq)
      operationsTouched := s.touchOperation rpcReq.commandKey }

/-- `value[1]?.[0]` of attributes with a value. -/
def firstOf : AttrValue → Option Value
  | .array (v :: _) => v
  | .array [] => none
  | .scalar (some (.str (c :: _))) => some (.str [c])
  | .scalar _ => none

/-- `v || 0`. -/
def orZero (v : Option Value) : Option Value :=
  if (AttrValue.scalar v).truthy then v else some (.num 0)

/-- `Download` goes back to `LastDownload`, whose attributes must have a value. -/
def revertDownloadParameters (inst : Instance) : Except JsError (DeviceSession P) :=
  let last := downloadPath inst DownloadParameter.lastDownload.name
  let deviceData := { s.deviceData with paths := s.deviceData.paths.add last }
  let revert (value : Option Value) : DeviceSession P :=
    { s with deviceData := (DeviceData.valueBatch s.writeTime
        [(downloadPath inst (js "Download"),
          .array [orZero value, some (.str (js "xsd:dateTime"))])]).run deviceData }
  match deviceData.attributes.get? last with
  | none => .ok (revert none)
  | some lastDownload =>
      match lastDownload .value with
      | none => .error .typeError
      | some (_, value) => .ok (revert (firstOf value))

/-- The values that a `TransferComplete` is recorded with. -/
def transferValues (operation : Operation P) (rpcReq : TransferCompleteRequest) :
    DownloadParameter → AttrValue
  | .lastDownload => xsdDateTime operation.timestamp
  | .lastFileType => xsdString operation.args.fileType
  | .lastFileName => xsdString operation.args.fileName
  | .lastTargetFileName => xsdString operation.args.targetFileName
  | .startTime => xsdDateTime rpcReq.startTime
  | .completeTime => xsdDateTime rpcReq.completeTime

/-- The session, and the operation and the fault of the answer. -/
def transferComplete (rpcReq : TransferCompleteRequest) :
    Except JsError (DeviceSession P × Option (Operation P) × Option Fault) :=
  match s.operations.get? rpcReq.commandKey with
  | none => .ok (s, none, none)
  | some operation =>
      let s : DeviceSession P := { s with
        operations := s.operations.erase rpcReq.commandKey
        operationsTouched := s.touchOperation rpcReq.commandKey }
      let record := downloadRecord operation.args.inst (transferValues operation rpcReq)
      if rpcReq.faultStruct.map FaultStruct.faultCode = some "0" then
        .ok ({ s with deviceData := (DeviceData.valueBatch s.writeTime record).run s.deviceData },
          some operation, none)
      else do
        let s ← s.revertDownloadParameters operation.args.inst
        match rpcReq.faultStruct with
        | none => .error .typeError
        | some faultStruct =>
            .ok (s, some operation,
              some ⟨"cwmp." ++ faultStruct.faultCode, faultStruct.faultString,
                some operation.timestamp⟩)

/-- The value of a parameter of an instance. -/
def valueOf (inst : Instance) (k : DownloadParameter) : Option AttrValue :=
  s.deviceData.valueOf (downloadPath inst k.name)

/-- The value that the next write of a parameter will leave there, as it is
stamped with the time of the write or later. -/
def heldValue (inst : Instance) (k : DownloadParameter) : Option AttrValue :=
  s.deviceData.heldValue s.writeTime (downloadPath inst k.name)

/-! ## The two records -/

section Record

variable {s}

theorem writeTime_pos : 0 < s.writeTime :=
  Nat.cast_pos.mpr (Nat.succ_pos _)

theorem downloadPath_plain (inst : Instance) {name : JsString} (h : name ≠ star) :
    star ∉ downloadPath inst name := by
  have htop : star ≠ js "Downloads" := by decide
  simp [downloadPath, htop, inst.2.symm, h.symm]

/-- Paths of one instance are one above the other only if they are the same. -/
theorem downloadPath_apart {inst : Instance} {name name' : JsString} (h : name ≠ name') :
    ¬ downloadPath inst name <+: downloadPath inst name' := by
  intro hpre
  have heq := hpre.eq_of_length rfl
  simp only [downloadPath, List.cons.injEq, true_and, and_true] at heq
  exact h heq

theorem name_injective : Function.Injective DownloadParameter.name := by
  intro k k' h
  cases k <;> cases k' <;> first | rfl | exact absurd h (by decide)

theorem name_ne (k : DownloadParameter) : k.name ≠ star ∧ k.name ≠ js "Download" := by
  cases k <;> decide

theorem downloadRecord_plain (inst : Instance) (values : DownloadParameter → AttrValue) :
    ∀ e ∈ downloadRecord inst values, star ∉ e.1 := by
  intro e he
  obtain ⟨k, -, rfl⟩ := List.mem_map.mp he
  exact downloadPath_plain inst (name_ne k).1

theorem downloadRecord_apart (inst : Instance) (values : DownloadParameter → AttrValue) :
    (downloadRecord inst values).Pairwise fun e e' => ¬ e.1 <+: e'.1 ∧ ¬ e'.1 <+: e.1 := by
  have hnodup : DownloadParameter.all.Nodup := by decide
  refine List.pairwise_map.mpr (hnodup.imp fun hne => ?_)
  exact ⟨downloadPath_apart fun h => hne (name_injective h),
    downloadPath_apart fun h => hne (name_injective h).symm⟩

theorem downloadRecord_mem (inst : Instance) (values : DownloadParameter → AttrValue)
    (k : DownloadParameter) : (downloadPath inst k.name, values k) ∈ downloadRecord inst values :=
  List.mem_map.mpr ⟨k, k.mem_all, rfl⟩

/-- What a `DownloadResponse` with status 0 leaves. -/
theorem downloadResponse_values (rpcReq : Download) {rpcRes : DownloadResponse}
    (h : rpcRes.status = 0) (k : DownloadParameter) :
    (s.downloadResponse rpcReq rpcRes).valueOf rpcReq.inst k
      = some ((s.heldValue rpcReq.inst k).getD (s.responseValues rpcReq rpcRes k)) := by
  have hstar : js "Download" ≠ star := by decide
  rw [downloadResponse, if_pos h]
  refine DeviceData.valueBatch_stands s.deviceData writeTime_pos ?_ ?_ _
    (List.mem_cons_of_mem _ (downloadRecord_mem rpcReq.inst (s.responseValues rpcReq rpcRes) k))
  · exact List.forall_mem_cons.mpr
      ⟨downloadPath_plain rpcReq.inst hstar, downloadRecord_plain rpcReq.inst _⟩
  · refine List.pairwise_cons.mpr ⟨fun e he => ?_, downloadRecord_apart rpcReq.inst _⟩
    obtain ⟨k', -, rfl⟩ := List.mem_map.mp he
    exact ⟨downloadPath_apart (name_ne k').2.symm, downloadPath_apart (name_ne k').2⟩

/-- Another status leaves an operation under the command key. -/
theorem downloadResponse_operations (rpcReq : Download) {rpcRes : DownloadResponse}
    (h : rpcRes.status ≠ 0) :
    (s.downloadResponse rpcReq rpcRes).operations.get? rpcReq.commandKey
      = some (s.operationOf rpcReq) := by
  rw [downloadResponse, if_neg h]
  exact InsMap.get?_set_self _ _ _

/-- What a successful `TransferComplete` for a stored operation leaves. -/
theorem transferComplete_values {rpcReq : TransferCompleteRequest} {operation : Operation P}
    (hstored : s.operations.get? rpcReq.commandKey = some operation)
    (hok : rpcReq.faultStruct.map FaultStruct.faultCode = some "0") :
    ∃ s', s.transferComplete rpcReq = .ok (s', some operation, none)
      ∧ s'.operations = s.operations.erase rpcReq.commandKey
      ∧ ∀ k, s'.valueOf operation.args.inst k
        = some ((s.heldValue operation.args.inst k).getD (transferValues operation rpcReq k)) := by
  rw [transferComplete, hstored]
  simp only [if_pos hok]
  refine ⟨_, rfl, rfl, fun k => ?_⟩
  exact DeviceData.valueBatch_stands s.deviceData writeTime_pos
    (downloadRecord_plain _ _) (downloadRecord_apart _ _) _
    (downloadRecord_mem operation.args.inst (transferValues operation rpcReq) k)

/-- What a `TransferComplete` tells of a download that succeeded. -/
def succeeded (rpcReq : Download) (startTime completeTime : ℚ) (faultString : String) :
    TransferCompleteRequest :=
  ⟨rpcReq.commandKey, some ⟨"0", faultString⟩, startTime, completeTime⟩

/-- A `DownloadResponse` records the file type as the file name and as the
target file name. -/
theorem responseValues_iff (rpcReq : Download) (startTime completeTime : ℚ) (faultString : String)
    (k : DownloadParameter) :
    s.responseValues rpcReq ⟨0, startTime, completeTime⟩ k
        = transferValues (s.operationOf rpcReq)
          (succeeded rpcReq startTime completeTime faultString) k
      ↔ (k = .lastFileName → rpcReq.fileName = rpcReq.fileType)
        ∧ (k = .lastTargetFileName → rpcReq.targetFileName = rpcReq.fileType) := by
  cases k <;> simp [responseValues, transferValues, operationOf, succeeded, xsdString, eq_comm]

/-- When the record of a download, written in session `s`, agrees on a parameter
with the one that a transfer in session `s'` writes. In the first case no session
holds a value that its write leaves alone. -/
def Agree (s s' : DeviceSession P) (rpcReq : Download) (rpcRes : DownloadResponse)
    (transfer : TransferCompleteRequest) (k : DownloadParameter) : Prop :=
  match s.heldValue rpcReq.inst k, s'.heldValue rpcReq.inst k with
  | none, none => (k = .lastFileName → rpcReq.fileName = rpcReq.fileType)
      ∧ (k = .lastTargetFileName → rpcReq.targetFileName = rpcReq.fileType)
  | some v, none => v = transferValues (s.operationOf rpcReq) transfer k
  | none, some v' => s.responseValues rpcReq rpcRes k = v'
  | some v, some v' => v = v'

end Record

/-- An immediate download leaves the record that a deferred one leaves just when
its file name and its target file name are its file type, for all parameters
that no session holds a newer value of. -/
theorem downloads_agree_iff (s s' : DeviceSession P) (rpcReq : Download)
    (startTime completeTime : ℚ) (faultString : String) (deferred : ℚ × ℚ)
    (hstored : s'.operations.get? rpcReq.commandKey
      = (s.downloadResponse rpcReq ⟨1, deferred.1, deferred.2⟩).operations.get?
        rpcReq.commandKey) :
    let rpcRes : DownloadResponse := ⟨0, startTime, completeTime⟩
    let transfer := succeeded rpcReq startTime completeTime faultString
    ∃ after, s'.transferComplete transfer = .ok (after, some (s.operationOf rpcReq), none)
      ∧ ((∀ k, (s.downloadResponse rpcReq rpcRes).valueOf rpcReq.inst k
          = after.valueOf rpcReq.inst k)
        ↔ ∀ k, s.Agree s' rpcReq rpcRes transfer k) := by
  intro rpcRes transfer
  rw [downloadResponse_operations rpcReq one_ne_zero] at hstored
  obtain ⟨after, hafter, -, hvalues⟩ := @transferComplete_values P s' transfer _ hstored rfl
  refine ⟨after, hafter, forall_congr' fun k => ?_⟩
  have hvalue : after.valueOf rpcReq.inst k = some ((s'.heldValue rpcReq.inst k).getD
      (transferValues (s.operationOf rpcReq) transfer k)) := hvalues k
  rw [downloadResponse_values rpcReq rfl k, hvalue, Option.some_inj, Agree]
  cases s.heldValue rpcReq.inst k with
  | none =>
      cases s'.heldValue rpcReq.inst k with
      | none => exact responseValues_iff rpcReq startTime completeTime faultString k
      | some v' => exact Iff.rfl
  | some v =>
      cases s'.heldValue rpcReq.inst k with
      | none => exact Iff.rfl
      | some v' => exact Iff.rfl

/-- A session of a device without parameters. -/
def newSession (timestamp : Nat) : DeviceSession Unit where
  timestamp := timestamp
  iteration := 0
  deviceData := initDeviceData
  operations := .empty
  operationsTouched := []

/-- A file whose name is not its type. -/
def firmware : Download where
  commandKey := js "18c2ed50000"
  inst := ⟨js "1", by decide⟩
  fileType := some (.str (js "1 Firmware Upgrade Image"))
  fileName := some (.str (js "fw.bin"))
  targetFileName := some (.str [])

/-- The session after the CPE has deferred a download, at a later time. -/
def laterSession (rpcReq : Download) : DeviceSession Unit :=
  { (newSession 1000).downloadResponse rpcReq ⟨1, 0, 0⟩ with timestamp := 2000 }

theorem downloads_agree_firmware : ∃ after,
    (laterSession firmware).transferComplete (succeeded firmware 1100 1900 "")
        = .ok (after, some ((newSession 1000).operationOf firmware), none)
      ∧ ((∀ k, ((newSession 1000).downloadResponse firmware ⟨0, 1100, 1900⟩).valueOf firmware.inst k
          = after.valueOf firmware.inst k)
        ↔ ∀ k, (newSession 1000).Agree (laterSession firmware) firmware ⟨0, 1100, 1900⟩
          (succeeded firmware 1100 1900 "") k) :=
  downloads_agree_iff (newSession 1000) (laterSession firmware) firmware 1100 1900 "" (0, 0) rfl

/-- The file name of an immediate download is recorded as the file type. -/
theorem downloads_disagree : ¬ ∀ (s s' : DeviceSession Unit) (rpcReq : Download)
    (startTime completeTime : ℚ) (deferred : ℚ × ℚ),
    s'.operations.get? rpcReq.commandKey
      = (s.downloadResponse rpcReq ⟨1, deferred.1, deferred.2⟩).operations.get?
        rpcReq.commandKey →
    ∃ after, s'.transferComplete (succeeded rpcReq startTime completeTime "")
        = .ok (after, some (s.operationOf rpcReq), none)
      ∧ ∀ k, (s.downloadResponse rpcReq ⟨0, startTime, completeTime⟩).valueOf rpcReq.inst k
        = after.valueOf rpcReq.inst k := by
  intro h
  obtain ⟨after, hafter, hall⟩ :=
    h (newSession 1000) (laterSession firmware) firmware 1100 1900 (0, 0) rfl
  have himmediate : ((newSession 1000).downloadResponse firmware ⟨0, 1100, 1900⟩).valueOf
      firmware.inst .lastFileName = some (xsdString firmware.fileType) := by decide +kernel
  have hdeferred : ((laterSession firmware).transferComplete
      (succeeded firmware 1100 1900 "")).map (·.1.valueOf firmware.inst .lastFileName)
        = .ok (some (xsdString firmware.fileName)) := by decide +kernel
  rw [hafter] at hdeferred
  have hvalue : after.valueOf firmware.inst .lastFileName = some (xsdString firmware.fileName) :=
    Except.ok.inj hdeferred
  have hlast := hall .lastFileName
  rw [himmediate, hvalue] at hlast
  exact absurd hlast (by decide)

end DeviceSession

end GenieAcs
