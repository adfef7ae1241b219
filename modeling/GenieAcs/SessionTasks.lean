import GenieAcs.CwmpFaults
import GenieAcs.Normalize

/-!
# The tasks and presets of a session

`nextRpc` and `applyPresets` of `lib/cwmp.ts`. A session runs its tasks one by
one, then what its faults and its presets ask for, each under a channel: their
provisions are added and `rpcRequest` is called until it has no request left
for the CPE. Which channels that completes is read off the channels that are
still set at that moment.

What `rpcRequest` answers and what expressions come to is the environment's
choice, as both depend on the device. `history` is not in the code: it lists
what has run and what has faulted, the last event first.
-/

namespace GenieAcs

def MAX_CYCLES : Nat := 4

/-- `[name, ...args]`. -/
structure Provision where
  name : JsString
  args : List Expr
  deriving DecidableEq

/-- `JSON.stringify(provision)`. -/
def Provision.text (J : Js) (p : Provision) : JsString :=
  js "[" ++ jsonString p.name ++ jsonArgs J p.args ++ js "]"

def Expr.string (s : JsString) : Expr := .lit (some (.str s))

/-- A duration that is not a number is `none`, a schedule that could not be
parsed too; a parsed one tells its last time before a timestamp. -/
structure Schedule where
  duration : Option ℚ
  schedule : Option (Nat → ℤ)

structure Preset where
  channel : Channel
  schedule : Option Schedule := none
  events : List (JsString × Bool) := []
  precondition : Expr
  provisions : List Provision

/-- What `applyPresets` reads outside the session: the presets and the setting
`cwmp.retryDelay` (`none` is NaN), the events of the device, and what
expressions come to: `extractParams` lists the parameters of an expression that
was evaluated without the device, a name that is not a string as `none`. -/
structure Surroundings where
  presets : List Preset
  retryDelay : Option ℚ
  deviceEvents : List JsString
  extractParams : Expr → List (Option JsString)
  evaluate : Expr → Expr
  /-- The device data changed after `rpcRequest` was called. -/
  dirty : Bool

/-! ## White space -/

def isWhiteSpace (c : Nat) : Bool :=
  decide (9 ≤ c ∧ c ≤ 13 ∨ c = 32 ∨ c = 160 ∨ c = 0x1680 ∨ 0x2000 ≤ c ∧ c ≤ 0x200a
    ∨ c = 0x2028 ∨ c = 0x2029 ∨ c = 0x202f ∨ c = 0x205f ∨ c = 0x3000 ∨ c = 0xfeff)

/-- The rest of `k.replace(/\s+/g, "_")`, within a run of white space or not. -/
def underscoredFrom (within : Bool) : JsString → JsString
  | [] => []
  | c :: s =>
      if isWhiteSpace c then
        if within then underscoredFrom true s else '_'.toNat :: underscoredFrom true s
      else c :: underscoredFrom false s

def underscored (k : JsString) : JsString := underscoredFrom false k

def Task.expired (timestamp : Nat) (task : Task Provision) : Bool :=
  match task.expiry with
  | some expiry => decide (expiry ≤ timestamp)
  | none => false

/-! ## What a session adds -/

/-- `channels[c] = 0`. -/
def Provisioning.clearMask {P : Type} (s : Provisioning P) (c : Channel) : Provisioning P :=
  { s with channels := s.channels.set c 0 }

namespace SessionContext

variable {P : Type}

/-- A fault that is over. -/
def dropFault (s : SessionContext P) (c : Channel) : SessionContext P :=
  if (s.faults.get? c).isSome then
    { s with
      faults := s.faults.erase c
      faultsTouched := c :: s.faultsTouched }
  else s

/-- `delete f.retryNow` for all faults. -/
def deleteRetryNow (s : SessionContext P) : SessionContext P :=
  { s with faults := s.faults.filterMap fun _ f => some { f with retryNow := false } }

variable (J : Js)

def addProvisions (s : SessionContext Provision) (c : Channel) (ps : List Provision) :
    SessionContext Provision :=
  { s with provisioning := s.provisioning.addProvisions (Provision.text J) c ps }

/-- One call for each provision; the channel is set before in case there are
none. -/
def addEach (s : SessionContext Provision) (c : Channel) (ps : List Provision) :
    SessionContext Provision :=
  ps.foldl (fun s p => s.addProvisions J c [p])
    { s with provisioning := s.provisioning.clearMask c }

/-- `recordFault(sessionContext, fault)` and `clearProvisions`. -/
def charge (s : SessionContext Provision) (fault : Fault) : Option (SessionContext Provision) :=
  (recordSessionFault (Provision.text J) s fault).map clearProvisions

/-! ## Tasks -/

/-- The path of `addObject`: the parameters are the alias of the instance. -/
def aliasPath (task : Task Provision) : JsString :=
  let parts := task.parameterValues.map fun p => p.1 ++ js ":" ++ jsonValue J p.2
  task.objectName ++ js ".[" ++ List.intercalate (js ",") parts ++ js "]"

/-- The provisions of a task are added; `none` for an invalid task. -/
def startTask (s : SessionContext Provision) (task : Task Provision) :
    Option (SessionContext Provision) :=
  let channel := Channel.task task.id
  match task.name with
  | "getParameterValues" =>
      some (s.addEach J channel (task.parameterNames.map fun p => ⟨js "refresh", [.string p]⟩))
  | "setParameterValues" =>
      some (s.addEach J channel
        (task.parameterValues.map fun p => ⟨js "value", [.string p.1, .lit p.2]⟩))
  | "refreshObject" =>
      some (s.addProvisions J channel [⟨js "refresh", [.string task.objectName]⟩])
  | "reboot" => some (s.addProvisions J channel [⟨js "reboot", []⟩])
  | "factoryReset" => some (s.addProvisions J channel [⟨js "reset", []⟩])
  | "download" =>
      some (s.addProvisions J channel
        [⟨js "download", [.string task.fileType, .string task.fileName,
          .string task.targetFileName]⟩])
  | "addObject" =>
      some (s.addProvisions J channel
        [⟨js "instances", [.string (aliasPath J task), .string (js "+1")]⟩])
  | "deleteObject" =>
      some (s.addProvisions J channel
        [⟨js "instances", [.string task.objectName, .lit (some (.num 0))]⟩])
  | "provisions" => some (s.addProvisions J channel task.provisions)
  | _ => none

/-- One round of the loop over the channels that `rpcRequest` completed. -/
def completeChannel (s : SessionContext P) (e : Channel × Mask) : SessionContext P :=
  let s := if e.2 = 0 then s else s.dropFault e.1
  match e.1 with
  | .task id =>
      { s with
        doneTasks := s.doneTasks ++ [id]
        tasks := s.tasks.eraseP fun t => t.id = id }
  | .named _ => s

/-- A task whose time is over. -/
def dropTask (s : SessionContext P) (task : Task P) : SessionContext P :=
  dropFault { s with doneTasks := s.doneTasks ++ [task.id] } (.task task.id)

def clearExpired (s : SessionContext Provision) : SessionContext Provision :=
  let kept := s.tasks.filter fun t => !Task.expired s.timestamp t
  (s.tasks.filter (Task.expired s.timestamp)).foldl dropTask { s with tasks := kept }

/-- The task has no fault from before. -/
def ready (s : SessionContext P) (task : Task P) : Bool :=
  (s.faults.get? (.task task.id)).isNone

/-! ## Presets -/

/-- When a fault may be retried; `none` is NaN. -/
def retryTimestamp (retryDelay : Option ℚ) (s : SessionContext P) (c : Channel)
    (fault : SessionFault P) : Option ℚ :=
  if fault.retryNow then some 0
  else
    match retryDelay, s.retries.get? c with
    | some delay, some retries => some (fault.timestamp + delay * 2 ^ retries * 1000)
    | _, _ => none

def retryable (retryDelay : Option ℚ) (s : SessionContext P) (e : Channel × SessionFault P) :
    Bool :=
  match retryTimestamp retryDelay s e.1 e.2 with
  | some t => decide (t ≤ s.timestamp)
  | none => false

/-- `whiteList`, the first fault that may be retried, and its provisions. -/
def whiteList (retryDelay : Option ℚ) (s : SessionContext P) : Option (Channel × List P) :=
  (s.faults.entries.find? (retryable retryDelay s)).map fun e => (e.1, e.2.provisions)

/-- `blackList[c]` for the faults before that one; 0 if there is none. -/
def blackList (retryDelay : Option ℚ) (s : SessionContext P) (c : Channel) : Nat :=
  let held := s.faults.entries.takeWhile fun e => !retryable retryDelay s e
  match held.find? (fun e => e.1 = c) with
  | some e => if e.2.precondition then 1 else 2
  | none => 0

def eventsMatch (E : Surroundings) (preset : Preset) : Bool :=
  preset.events.all fun e => e.2 == decide (underscored e.1 ∈ E.deviceEvents)

/-- The schedule of the preset has begun less than its duration ago. -/
def scheduled (timestamp : Nat) (preset : Preset) : Bool :=
  match preset.schedule with
  | some { duration, schedule := some prev } =>
      match duration with
      | some duration => decide ((timestamp : ℚ) < prev timestamp + duration)
      | none => false
  | _ => true

def passes (E : Surroundings) (s : SessionContext Provision) (preset : Preset) : Bool :=
  (match s.whiteList E.retryDelay with
    | some (channel, _) => decide (preset.channel = channel)
    | none => decide (s.blackList E.retryDelay preset.channel ≠ 1))
  && eventsMatch E preset && scheduled s.timestamp preset

def filteredPresets (E : Surroundings) (s : SessionContext Provision) : List Preset :=
  E.presets.filter (passes E s)

/-- The parameters of the precondition and of the arguments. -/
def presetParams (E : Surroundings) (preset : Preset) : List (Option JsString) :=
  (preset.precondition :: preset.provisions.flatMap Provision.args).flatMap E.extractParams

/-- Mark channel in case of fault during fetching precondition. -/
def markPreset (E : Surroundings) (s : SessionContext Provision) (preset : Preset) :
    SessionContext Provision :=
  if presetParams E preset = [] then s
  else { s with provisioning := s.provisioning.clearMask preset.channel }

def markPresets (E : Surroundings) (s : SessionContext Provision) : SessionContext Provision :=
  (s.filteredPresets E).foldl (markPreset E) s

/-- There are parameters to fetch before the preconditions are evaluated. -/
def declares (E : Surroundings) (s : SessionContext Provision) : Bool :=
  (s.filteredPresets E).any fun preset => (presetParams E preset).any Option.isSome

/-- One round of the loop over the filtered presets: the provisions of a preset
whose channel has to wait go to `appendProvisionsToFaults`. -/
def addPreset (E : Surroundings) (blackList : Channel → Nat)
    (r : SessionContext Provision × InsMap Channel (List Provision)) (preset : Preset) :
    SessionContext Provision × InsMap Channel (List Provision) :=
  if (E.evaluate preset.precondition).truthy then
    let provs := preset.provisions.map fun p => { p with args := p.args.map E.evaluate }
    if blackList preset.channel = 2 then
      (r.1, r.2.set preset.channel ((r.2.get? preset.channel).getD [] ++ provs))
    else (r.1.addProvisions J preset.channel provs, r.2)
  else r

def appendToFault (s : SessionContext Provision) (e : Channel × List Provision) :
    SessionContext Provision :=
  let (provisions, modified) :=
    appendProvisions (Provision.text J) (provisionsOf s.faults e.1) e.2
  { s with
    faults := updateFault s.faults e.1 fun _ => provisions
    faultsTouched := if modified then e.1 :: s.faultsTouched else s.faultsTouched }

/-- The provisions of the fault that is retried, and no others. -/
def withRetry (retryDelay : Option ℚ) (s : SessionContext Provision) : SessionContext Provision :=
  match s.whiteList retryDelay with
  | some (channel, provisions) => s.clearProvisions.addProvisions J channel provisions
  | none => s.clearProvisions

/-- The session before `rpcRequest` is called for what was added. -/
def withProvisions (E : Surroundings) (s : SessionContext Provision) : SessionContext Provision :=
  let (added, appended) := (s.filteredPresets E).foldl
    (addPreset J E (s.blackList E.retryDelay)) (s.withRetry J E.retryDelay, InsMap.empty)
  let added := appended.entries.foldl (appendToFault J) added
  -- Don't increment when processing a single channel (e.g. after fault)
  match s.whiteList E.retryDelay with
  | some _ => added
  | none => { added with presetCycles := added.presetCycles + 1 }

end SessionContext

/-! ## The machine -/

/-- What `rpcRequest` answers. -/
inductive Answer where
  | fault (code message : String)
  | request
  | complete

/-- Where the session stands: before a call of `nextRpc` or `applyPresets`,
after a request was sent, or after the last response. -/
inductive Control where
  | nextRpc
  | applyPresets
  | sent
  | closing
  | ended
  deriving DecidableEq

inductive ChannelEvent where
  /-- `rpcRequest` was called for the provisions of the channel. -/
  | ran (c : Channel)
  /-- A fault was recorded for it. -/
  | faulted (c : Channel)
  deriving DecidableEq

/-- `declared` says that declarations are left that no provision has made. -/
structure SessionRun where
  context : SessionContext Provision
  declared : Bool := false
  control : Control := .nextRpc
  history : List ChannelEvent := []

namespace SessionRun

open SessionContext

/-- `rpcRequest` answers at once if there is nothing to run or to read. -/
def rpcRequest (s : SessionContext Provision) (declared : Bool) (answer : Answer) : Answer :=
  if s.provisioning.provisions.isEmpty && !declared then .complete else answer

def running (s : SessionContext Provision) : List ChannelEvent :=
  s.provisioning.channels.keys.map .ran

def faulting (s : SessionContext Provision) : List ChannelEvent :=
  s.provisioning.channels.keys.map .faulted

variable (J : Js)

/-- `nextRpc` after `rpcRequest` has completed: the channels that are set are
done, and the next task is started. -/
def takeTask (r : SessionRun) : SessionRun :=
  let s := r.context.provisioning.channels.entries.foldl completeChannel r.context
  let s := s.clearProvisions.clearExpired
  let history := running r.context ++ r.history
  match s.tasks.find? s.ready with
  | none => { context := s, control := .applyPresets, history }
  | some task =>
      match startTask J s task with
      | some s => { context := s, control := .nextRpc, history }
      | none =>
          { context :=
              { s with
                doneTasks := s.doneTasks ++ [task.id]
                tasks := s.tasks.eraseP s.ready }
            control := .nextRpc
            history }

/-- A fault of `rpcRequest` has the time of the session. -/
def recordAnswer (s : SessionContext Provision) (code message : String) :
    Option (SessionContext Provision) :=
  s.charge J { code, message, timestamp := some s.timestamp }

/-- `none` where the code throws. -/
def nextRpc (answer : Answer) (r : SessionRun) : Option SessionRun :=
  match rpcRequest r.context r.declared answer with
  | .fault code message =>
      (recordAnswer J r.context code message).map fun s =>
        { context := s, history := faulting r.context ++ running r.context ++ r.history }
  | .request =>
      some { r with
        control := .sent
        history := running r.context ++ r.history }
  | .complete => some (takeTask J r)

/-- `applyPresets` from the second `rpcRequest` on. -/
def runPresets (E : Surroundings) (retrying : Bool) (answer : Answer)
    (s : SessionContext Provision) (history : List ChannelEvent) : Option SessionRun :=
  if s.presetCycles > MAX_CYCLES then
    let fault : Fault :=
      { code := "preset_loop"
        message := "The presets are stuck in an endless configuration loop"
        timestamp := some s.timestamp }
    (recordSessionFault (Provision.text J) s fault).map fun s' =>
      { context := s'.deleteRetryNow.clearProvisions
        control := .closing
        history := faulting s ++ history }
  else
    let history' := running s ++ history
    match rpcRequest s false answer with
    | .fault code message =>
        (recordAnswer J s code message).map fun s' =>
          { context := s', control := .applyPresets, history := faulting s ++ history' }
    | .request => some { context := s, control := .sent, history := history' }
    | .complete =>
        some
          { context := s.provisioning.channels.keys.foldl dropFault s
            control := if retrying || E.dirty then .applyPresets else .closing
            history := history' }

/-- The first answer is about the parameters of the preconditions. -/
def applyPresets (E : Surroundings) (fetched answer : Answer) (r : SessionRun) :
    Option SessionRun :=
  let s := r.context.markPresets E
  let declared := r.context.declares E
  match rpcRequest s declared fetched with
  | .fault code message =>
      (recordAnswer J s code message).map fun s' =>
        { context := s', control := .applyPresets, history := faulting s ++ r.history }
  | .request => some { context := s, declared, control := .sent, history := r.history }
  | .complete =>
      runPresets J E (r.context.whiteList E.retryDelay).isSome answer
        (r.context.withProvisions J E) r.history

/-- The CPE has answered; a fault of `rpcResponse` or `rpcFault` has no time. -/
def respond (fault : Option (String × String)) (r : SessionRun) : Option SessionRun :=
  match fault with
  | none => some { r with control := .nextRpc }
  | some (code, message) =>
      (r.context.charge J { code, message }).map fun s =>
        { context := s, history := faulting r.context ++ r.history }

/-- `endSession` where the connection is gone. -/
def endSession (r : SessionRun) : Option SessionRun :=
  if r.context.provisioning.provisions.isEmpty then some { r with control := .ended }
  else
    let fault : Fault :=
      { code := "session_terminated"
        message := "The TR-069 session was unsuccessfully terminated"
        timestamp := some r.context.timestamp }
    (recordSessionFault (Provision.text J) r.context fault).map fun s =>
      { context := s.deleteRetryNow
        control := .ended
        history := faulting r.context ++ r.history }

inductive Action where
  | nextRpc (answer : Answer)
  | applyPresets (E : Surroundings) (fetched answer : Answer)
  | respond (fault : Option (String × String))
  /-- The last response is written. -/
  | close
  /-- The connection is gone. -/
  | endSession

/-- `none` where the session does not stand there, or the code throws. -/
def step (r : SessionRun) (a : Action) : Option SessionRun :=
  match r.control, a with
  | .nextRpc, .nextRpc answer => nextRpc J answer r
  | .applyPresets, .applyPresets E fetched answer => applyPresets J E fetched answer r
  | .sent, .respond fault => respond J fault r
  | .sent, .endSession => endSession J r
  | .closing, .close => some { r with context := r.context.clearProvisions, control := .ended }
  | .closing, .endSession => endSession J r
  | _, _ => none

end SessionRun

end GenieAcs
