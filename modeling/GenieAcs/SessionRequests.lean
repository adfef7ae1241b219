import Mathlib.Data.Nat.Digits.Defs
import GenieAcs.Lib.Transition
import GenieAcs.JsonText
import GenieAcs.ProvisionChannels

/-!
# Requests of a session

A session has at most one request outstanding. Its id is made of the session's
timestamp and of the last two hexadecimal digits of two counters: `rpcCount`
counts the answers of a cycle, and a cycle begins when provisions are added or
cleared after requests were made. New requests are checked against the limits of
the counters; the requests that an answer itself leads to are not.

What the scripts, the generators of requests and the device data make of their
inputs is left open: it comes in as answers and handlers.
-/

namespace GenieAcs

/-! ## Messages -/

/-- A request to the CPE. Adding an object is followed by `getInstanceKeys`, and
getting values may be followed by `setInstanceKeys`, with the values to set;
the type `A` has the other requests. -/
inductive AcsRequest (A : Type)
  | getParameterValues (parameterNames : List JsString)
      (instanceValues : Option (InsMap JsString JsString))
  | setParameterValues (parameterList : List (JsString × Option Value × JsString))
      (datetimeMilliseconds booleanLiteral : Bool)
  | addObject (objectName : JsString) (instanceValues : InsMap JsString JsString)
  | other (request : A)
  deriving DecidableEq

/-- A response of the CPE; the type `B` has what else it says. -/
structure CpeResponse (B : Type) where
  instanceNumber : Option JsString
  parameterList : Option (List (JsString × Option Value × JsString))
  body : B

structure CpeFault where
  faultCode : String
  faultString : String

/-! ## Sessions -/

/-- What a session context has on requests; `W` is what scripts and generators
work with. `made` is no part of the program: it numbers the requests. -/
structure RpcContext (D W P A : Type) where
  timestamp : Nat
  deviceData : D
  provisioning : Provisioning P := {}
  virtualParameters : List W := []
  declarations : List (List W) := []
  provisionsRet : List Bool := []
  revisions : List Nat := [0]
  /-- `syncState` with its `virtualParameterDeclarations`. -/
  syncState : Option (List W) := none
  rpcRequest : Option (AcsRequest A) := none
  cycle : Nat := 0
  rpcCount : Nat := 0
  iteration : ℚ := 0
  made : Nat := 0

/-- What a run of scripts comes to. -/
inductive ScriptResult (W : Type)
  | fault (code : String)
  | done (declare : List W) (ret : Bool)

/-- What the generators of requests come to, in the order they are asked. -/
inductive Generated (W A : Type)
  /-- Virtual parameters to get or to set. -/
  | provisions (provisions : W)
  | get (rpcReq : AcsRequest A)
  /-- The prerequisites of the declarations have changed. -/
  | prerequisite
  /-- The device data was updated. -/
  | updated
  | set (rpcReq : AcsRequest A)
  | nothing

/-- What the functions that `rpcRequest` calls once come to. -/
structure Answers (D W A : Type) where
  deviceData : D
  run : ScriptResult W
  MAX_ITERATIONS : ℚ
  virtualParameterDeclarations : W
  generated : Generated W A

/-- What `rpcRequest` returns, or the declarations it calls itself with. -/
inductive Reply (W A : Type)
  | fault (code : String)
  | request (rpcId : JsString) (rpc : AcsRequest A)
  | nothing
  | again (declarations : List W)

/-- What the handlers of answers do to the device data, given the revision and
the time. -/
structure Handlers (D A B : Type) where
  sanitizeParameterValue : Option JsString × JsString → Option Value × JsString
  /-- The parameters of a response, or a fault as it does not fit the request. -/
  store : AcsRequest A → CpeResponse B → Nat → ℚ → D → D × Option String
  /-- The clears after an invalid parameter name, if the request has names. -/
  recover : AcsRequest A → Nat → ℚ → D → Option D
  /-- `collapse(1)` of the versioned maps. -/
  collapse : D → D

/-- What the handler of an answer returns, or throws. -/
inductive Outcome
  | accepted
  | fault (code message : String)
  | typeError
  deriving DecidableEq

/-! ## Request ids -/

/-- `toString(16)`. -/
def hexText (n : Nat) : JsString :=
  if n = 0 then js "0" else ((Nat.digits 16 n).map hexDigit).reverse

/-- `("0" + n.toString(16)).slice(-2)`. -/
def hexByte (n : Nat) : JsString :=
  (js "0" ++ hexText n).drop ((js "0" ++ hexText n).length - 2)

def rpcId (timestamp cycle rpcCount : Nat) : JsString :=
  hexText timestamp ++ hexByte cycle ++ hexByte rpcCount

namespace Rpc

variable {D W P A B K : Type} [DecidableEq K]

abbrev generateRpcId (s : RpcContext D W P A) : JsString := rpcId s.timestamp s.cycle s.rpcCount

/-! ## Making requests -/

/-- Provisions of virtual parameters are to be run. -/
def nest (s : RpcContext D W P A) (deviceData : D) (provisions : W) : RpcContext D W P A :=
  { s with
    deviceData
    virtualParameters := s.virtualParameters ++ [provisions]
    revisions := s.revisions ++ [s.revisions.getD (s.declarations.length - 1) 0] }

/-- The last declarations are satisfied. -/
def satisfied (s : RpcContext D W P A) (deviceData : D) : RpcContext D W P A × Reply W A :=
  let inception := s.declarations.length - 1
  let ret := s.provisionsRet.getD inception false
  let s := { s with
    deviceData
    revisions := s.revisions.modify inception (· + 1)
    declarations := s.declarations.dropLast
    syncState := s.syncState.map List.dropLast
    provisionsRet := s.provisionsRet.take inception }
  if ret = false then (s, .again [])
  else
    let vparams := s.virtualParameters
    let s := { s with
      revisions := s.revisions.dropLast
      virtualParameters := s.virtualParameters.dropLast }
    if vparams = [] then (s, .nothing) else (s, .again [])

/-- A request becomes the outstanding one. -/
def issue (s : RpcContext D W P A) (deviceData : D) (rpcReq : AcsRequest A) :
    RpcContext D W P A × Reply W A :=
  ({ s with deviceData, rpcRequest := some rpcReq, made := s.made + 1 },
    .request (generateRpcId s) rpcReq)

/-- One call of `rpcRequest`, up to the call of itself. -/
def rpcRequest (s : RpcContext D W P A) (a : Answers D W A) (declarations : List W) :
    RpcContext D W P A × Reply W A :=
  match s.rpcRequest with
  | some rpc => (s, .request (generateRpcId s) rpc)
  | none =>
      if s.virtualParameters = [] ∧ s.declarations = [] ∧ declarations = []
          ∧ s.provisioning.provisions = [] then (s, .nothing)
      else if s.declarations.length ≤ s.virtualParameters.length then
        let inception := s.declarations.length
        match a.run with
        | .fault code => ({ s with deviceData := a.deviceData }, .fault code)
        | .done declare ret =>
            ({ s with
                deviceData := a.deviceData
                declarations := s.declarations ++ [declare]
                provisionsRet := s.provisionsRet.take inception ++ [ret] }, .again declarations)
      else if declarations ≠ [] then
        ({ s with
            syncState := none
            declarations := (s.declarations.headD [] ++ declarations) :: s.declarations.tail },
          .again [])
      else if 255 ≤ s.rpcCount then (s, .fault "too_many_rpcs")
      else if 8 ≤ s.revisions.length then (s, .fault "deeply_nested_vparams")
      else if 255 ≤ s.cycle then (s, .fault "too_many_cycles")
      else if a.MAX_ITERATIONS * (s.cycle + 1) ≤ s.iteration then (s, .fault "too_many_commits")
      else
        let inception := (s.syncState.getD []).length
        if s.syncState = none ∨ inception < s.declarations.length then
          ({ s with
              deviceData := a.deviceData
              syncState := some (s.syncState.getD [] ++ [a.virtualParameterDeclarations])
              -- virtual parameters do not need an iteration of their own
              iteration :=
                if inception = s.declarations.length - 1 then s.iteration + 2 else s.iteration },
            .again [])
        else
          match a.generated with
          | .provisions provisions => (nest s a.deviceData provisions, .again [])
          | .get rpcReq => issue s a.deviceData rpcReq
          | .prerequisite => ({ s with deviceData := a.deviceData, syncState := none }, .again [])
          | .updated => ({ s with deviceData := a.deviceData }, .again [])
          | .set rpcReq => issue s a.deviceData rpcReq
          | .nothing => satisfied s a.deviceData

/-! ## Answers -/

section

variable (H : Handlers D A B)

/-- What follows the outstanding request once it is answered. -/
def following (rpcReq : AcsRequest A) (rpcRes : CpeResponse B)
    (datetimeMilliseconds booleanLiteral : Bool) : Except JsError (Option (AcsRequest A)) :=
  match rpcReq with
  | .addObject objectName instanceValues =>
      let values := instanceValues.entries.map fun e =>
        (objectName ++ rpcRes.instanceNumber.getD (js "undefined") ++ js "." ++ e.1, e.2)
      if values = [] then .ok none
      else .ok (some (.getParameterValues (values.map Prod.fst)
        (some (values.foldl (fun m e => m.set e.1 e.2) .empty))))
  | .getParameterValues _ (some instanceValues) =>
      match rpcRes.parameterList with
      | none => .error .typeError
      | some parameterList =>
          let changed := parameterList.filter fun p =>
            p.2.1 ≠ (instanceValues.get? p.1).map Value.str
          let values := changed.map fun p =>
            (p.1, H.sanitizeParameterValue (instanceValues.get? p.1, p.2.2))
          if values = [] then .ok none
          else .ok (some (.setParameterValues values datetimeMilliseconds booleanLiteral))
  | _ => .ok none

/-- `(revisions[revisions.length - 1] || 0) + 1`. -/
def nextRevision (s : RpcContext D W P A) : Nat := s.revisions.getLastD 0 + 1

/-- The two flags are the configuration that a request to set values is sent with. -/
def rpcResponse (s : RpcContext D W P A) (id : JsString) (rpcRes : CpeResponse B)
    (datetimeMilliseconds booleanLiteral : Bool) : RpcContext D W P A × Outcome :=
  if id ≠ generateRpcId s then (s, .fault "invalid_response" "Request ID not recognized")
  else
    let s := { s with rpcCount := s.rpcCount + 1 }
    match s.rpcRequest with
    | none => (s, .typeError)
    | some rpcReq =>
        match following H rpcReq rpcRes datetimeMilliseconds booleanLiteral with
        | .error _ => (s, .typeError)
        | .ok next =>
            let (deviceData, fault) :=
              H.store rpcReq rpcRes (nextRevision s) (s.timestamp + s.iteration) s.deviceData
            let s := { s with
              deviceData
              rpcRequest := next
              made := if next.isSome then s.made + 1 else s.made }
            match fault with
            | some message => (s, .fault "invalid_response" message)
            | none => (s, .accepted)

/-- Nothing reads the id. -/
def rpcFault (s : RpcContext D W P A) (_id : JsString) (faultResponse : CpeFault) :
    RpcContext D W P A × Outcome :=
  let rpcReq := s.rpcRequest
  let s := { s with syncState := none, rpcRequest := none, rpcCount := s.rpcCount + 1 }
  let fault := Outcome.fault ("cwmp." ++ faultResponse.faultCode) faultResponse.faultString
  if faultResponse.faultCode = "9005" then
    match rpcReq with
    | none => (s, .typeError)
    | some rpcReq =>
        match H.recover rpcReq (nextRevision s) (s.timestamp + s.iteration + 1) s.deviceData with
        | some deviceData => ({ s with deviceData }, .accepted)
        | none => (s, fault)
  else (s, fault)

/-! ## Cycles -/

/-- Another cycle begins, unless the session is where the last one began. -/
def restart (MAX_ITERATIONS : ℚ) (s : RpcContext D W P A) : RpcContext D W P A :=
  if s.iteration ≠ s.cycle * MAX_ITERATIONS then
    { s with
      cycle := s.cycle + 1
      rpcCount := 0
      iteration := (s.cycle + 1 : Nat) * MAX_ITERATIONS }
  else s

def addProvisions (json : P → K) (MAX_ITERATIONS : ℚ) (s : RpcContext D W P A)
    (channel : Channel) (provisions : List P) : RpcContext D W P A :=
  let s := { s with syncState := none, rpcRequest := none, declarations := [], provisionsRet := [] }
  let s := if 0 < s.revisions.getLastD 0 then
    { s with deviceData := H.collapse s.deviceData, revisions := [0] } else s
  let s := restart MAX_ITERATIONS s
  { s with provisioning := s.provisioning.addProvisions json channel provisions }

def clearProvisions (MAX_ITERATIONS : ℚ) (s : RpcContext D W P A) : RpcContext D W P A :=
  let s := if 0 < s.revisions.getLastD 0 then
    { s with deviceData := H.collapse s.deviceData } else s
  let s := restart MAX_ITERATIONS s
  { s with
    syncState := none
    rpcRequest := none
    provisioning := Provisioning.clearProvisions
    virtualParameters := []
    declarations := []
    provisionsRet := []
    revisions := [0] }

/-! ## Runs -/

/-- A request as it was sent, with the counters it was sent at. -/
structure Sent (A : Type) where
  id : JsString
  rpc : AcsRequest A
  made : Nat
  cycle : Nat
  rpcCount : Nat

inductive Event (D W P A B : Type)
  | request (answers : Answers D W A) (declarations : List W)
  | response (id : JsString) (rpcRes : CpeResponse B)
      (datetimeMilliseconds booleanLiteral : Bool)
  | fault (id : JsString) (faultResponse : CpeFault)
  | addProvisions (MAX_ITERATIONS : ℚ) (channel : Channel) (provisions : List P)
  | clearProvisions (MAX_ITERATIONS : ℚ)

/-- A session and what it has sent. -/
structure Trace (D W P A : Type) where
  session : RpcContext D W P A
  sent : List (Sent A)

def send (t : Trace D W P A) (r : RpcContext D W P A × Reply W A) : Trace D W P A :=
  match r.2 with
  | .request id rpc =>
      ⟨r.1, ⟨id, rpc, r.1.made, t.session.cycle, t.session.rpcCount⟩ :: t.sent⟩
  | _ => ⟨r.1, t.sent⟩

/-- An error ends the process, and the session with it. -/
def receive (t : Trace D W P A) (r : RpcContext D W P A × Outcome) : Trace D W P A :=
  if r.2 = .typeError then t else { t with session := r.1 }

def step (json : P → K) (t : Trace D W P A) : Event D W P A B → Trace D W P A
  | .request answers declarations => send t (rpcRequest t.session answers declarations)
  | .response id rpcRes datetimeMilliseconds booleanLiteral =>
      receive t (rpcResponse H t.session id rpcRes datetimeMilliseconds booleanLiteral)
  | .fault id faultResponse => receive t (rpcFault H t.session id faultResponse)
  | .addProvisions MAX_ITERATIONS channel provisions =>
      { t with session := addProvisions H json MAX_ITERATIONS t.session channel provisions }
  | .clearProvisions MAX_ITERATIONS =>
      { t with session := clearProvisions H MAX_ITERATIONS t.session }

/-- What an event must meet for the ids to keep their promise: a response that
leads to another request comes before the last id of the cycle is used up, a
fault answers the outstanding request, and with a request outstanding a cycle is
not taken for one that has not begun. -/
def Meets (s : RpcContext D W P A) : Event D W P A B → Prop
  | .request _ _ => True
  | .response id rpcRes datetimeMilliseconds booleanLiteral =>
      id = generateRpcId s → ∀ rpcReq, s.rpcRequest = some rpcReq →
        ∀ next, following H rpcReq rpcRes datetimeMilliseconds booleanLiteral = .ok (some next) →
          s.rpcCount < 255
  | .fault id _ => id = generateRpcId s
  | .addProvisions MAX_ITERATIONS _ _ =>
      s.rpcRequest ≠ none → s.iteration ≠ s.cycle * MAX_ITERATIONS
  | .clearProvisions MAX_ITERATIONS =>
      s.rpcRequest ≠ none → s.iteration ≠ s.cycle * MAX_ITERATIONS

/-- A session that has just begun. -/
def Begins (t : Trace D W P A) : Prop :=
  t.sent = [] ∧ t.session.rpcRequest = none ∧ t.session.cycle = 0 ∧ t.session.rpcCount = 0
    ∧ t.session.iteration = 0

def Run (json : P → K) : Trace D W P A → Prop :=
  Reachable Begins fun t t' => ∃ e : Event D W P A B, Meets H t.session e ∧ t' = step H json t e

/-! ## What the functions do to the counters -/

variable {H}

/-- The counters that an id is made of, and the timestamp. -/
def SameId (s s' : RpcContext D W P A) : Prop :=
  s'.timestamp = s.timestamp ∧ s'.cycle = s.cycle ∧ s'.rpcCount = s.rpcCount

/-- What one call of `rpcRequest` can do. -/
inductive Passes (s : RpcContext D W P A) : RpcContext D W P A × Reply W A → Prop
  /-- The outstanding request is repeated. -/
  | repeats {rpc} (h : s.rpcRequest = some rpc) :
      Passes s (s, .request (generateRpcId s) rpc)
  /-- A request is made, within the limits. -/
  | makes {s' rpc} (h : s.rpcRequest = none) (hsame : SameId s s') (hcount : s.rpcCount < 255)
      (hcycle : s.cycle < 255) (hreq : s'.rpcRequest = some rpc) :
      Passes s (s', .request (generateRpcId s) rpc)
  /-- No request is made. -/
  | goesOn {s' reply} (h : s.rpcRequest = none) (hsame : SameId s s')
      (hreq : s'.rpcRequest = none) (hreply : ∀ id rpc, reply ≠ .request id rpc) :
      Passes s (s', reply)

theorem satisfied_passes {s : RpcContext D W P A} (h : s.rpcRequest = none) (deviceData : D) :
    Passes s (satisfied s deviceData) := by
  unfold satisfied
  simp only
  split_ifs
  · exact .goesOn h ⟨rfl, rfl, rfl⟩ h fun _ _ h => nomatch h
  · exact .goesOn h ⟨rfl, rfl, rfl⟩ h fun _ _ h => nomatch h
  · exact .goesOn h ⟨rfl, rfl, rfl⟩ h fun _ _ h => nomatch h

theorem ite_passes {s : RpcContext D W P A} {c : Prop} [Decidable c]
    {r r' : RpcContext D W P A × Reply W A} (h : c → Passes s r) (h' : ¬ c → Passes s r') :
    Passes s (if c then r else r') := by
  split
  · exact h ‹_›
  · exact h' ‹_›

theorem rpcRequest_passes (s : RpcContext D W P A) (a : Answers D W A) (declarations : List W) :
    Passes s (rpcRequest s a declarations) := by
  unfold rpcRequest
  split
  · rename_i rpc h
    exact .repeats h
  · rename_i h
    have hon : ∀ {s' : RpcContext D W P A} {reply : Reply W A}, SameId s s' →
        s'.rpcRequest = none → (∀ id rpc, reply ≠ .request id rpc) → Passes s (s', reply) :=
      fun hsame hreq hreply => .goesOn h hsame hreq hreply
    have hmakes : s.rpcCount < 255 → s.cycle < 255 → ∀ rpcReq,
        Passes s (issue s a.deviceData rpcReq) :=
      fun hcount hcycle rpcReq => .makes h ⟨rfl, rfl, rfl⟩ hcount hcycle rfl
    dsimp only
    refine ite_passes (fun _ => hon ⟨rfl, rfl, rfl⟩ h fun _ _ h => nomatch h) fun _ => ?_
    refine ite_passes (fun _ => ?_) fun _ => ?_
    · cases a.run with
      | fault code => exact hon ⟨rfl, rfl, rfl⟩ h fun _ _ h => nomatch h
      | done declare ret => exact hon ⟨rfl, rfl, rfl⟩ h fun _ _ h => nomatch h
    refine ite_passes (fun _ => hon ⟨rfl, rfl, rfl⟩ h fun _ _ h => nomatch h) fun _ => ?_
    refine ite_passes (fun _ => hon ⟨rfl, rfl, rfl⟩ h fun _ _ h => nomatch h) fun hcount => ?_
    refine ite_passes (fun _ => hon ⟨rfl, rfl, rfl⟩ h fun _ _ h => nomatch h) fun _ => ?_
    refine ite_passes (fun _ => hon ⟨rfl, rfl, rfl⟩ h fun _ _ h => nomatch h) fun hcycle => ?_
    refine ite_passes (fun _ => hon ⟨rfl, rfl, rfl⟩ h fun _ _ h => nomatch h) fun _ => ?_
    refine ite_passes (fun _ => ?_) fun _ => ?_
    · exact hon ⟨rfl, rfl, rfl⟩ h fun _ _ h => nomatch h
    · cases a.generated with
      | provisions provisions => exact hon ⟨rfl, rfl, rfl⟩ h fun _ _ h => nomatch h
      | get rpcReq => exact hmakes (by omega) (by omega) rpcReq
      | prerequisite => exact hon ⟨rfl, rfl, rfl⟩ h fun _ _ h => nomatch h
      | updated => exact hon ⟨rfl, rfl, rfl⟩ h fun _ _ h => nomatch h
      | set rpcReq => exact hmakes (by omega) (by omega) rpcReq
      | nothing => exact satisfied_passes h a.deviceData

/-- An answer with the id of the outstanding request is counted, and what
follows that request becomes the outstanding one. -/
theorem rpcResponse_spec {s : RpcContext D W P A} {id : JsString} {rpcRes : CpeResponse B}
    {datetimeMilliseconds booleanLiteral : Bool} (hid : id = generateRpcId s)
    (h : (rpcResponse H s id rpcRes datetimeMilliseconds booleanLiteral).2 ≠ .typeError) :
    let s' := (rpcResponse H s id rpcRes datetimeMilliseconds booleanLiteral).1
    s'.timestamp = s.timestamp ∧ s'.cycle = s.cycle ∧ s'.rpcCount = s.rpcCount + 1
      ∧ ∃ rpcReq, s.rpcRequest = some rpcReq
        ∧ following H rpcReq rpcRes datetimeMilliseconds booleanLiteral = .ok s'.rpcRequest := by
  unfold rpcResponse at h ⊢
  rw [if_neg (not_not.mpr hid)] at h ⊢
  dsimp only at h ⊢
  cases hreq : s.rpcRequest with
  | none =>
      rw [hreq] at h
      exact absurd rfl h
  | some rpcReq =>
      rw [hreq] at h
      dsimp only at h ⊢
      cases hnext : following H rpcReq rpcRes datetimeMilliseconds booleanLiteral with
      | error e =>
          rw [hnext] at h
          exact absurd rfl h
      | ok next =>
          dsimp only
          split
          · exact ⟨rfl, rfl, rfl, rpcReq, rfl, hnext⟩
          · exact ⟨rfl, rfl, rfl, rpcReq, rfl, hnext⟩

/-- A fault is counted, whatever its id. -/
theorem rpcFault_spec (s : RpcContext D W P A) (id : JsString) (faultResponse : CpeFault) :
    let s' := (rpcFault H s id faultResponse).1
    s'.timestamp = s.timestamp ∧ s'.cycle = s.cycle ∧ s'.rpcCount = s.rpcCount + 1
      ∧ s'.rpcRequest = none := by
  unfold rpcFault
  dsimp only
  split_ifs
  · split
    · exact ⟨rfl, rfl, rfl, rfl⟩
    · split
      · exact ⟨rfl, rfl, rfl, rfl⟩
      · exact ⟨rfl, rfl, rfl, rfl⟩
  · exact ⟨rfl, rfl, rfl, rfl⟩

/-- Another cycle, or the same counters where the last one began. -/
def Restarts (m : ℚ) (s s' : RpcContext D W P A) : Prop :=
  s'.timestamp = s.timestamp ∧ s'.rpcRequest = none
    ∧ (s'.cycle = s.cycle + 1
      ∨ s.iteration = s.cycle * m ∧ s'.cycle = s.cycle ∧ s'.rpcCount = s.rpcCount)

theorem restart_spec (m : ℚ) (s : RpcContext D W P A) :
    (restart m s).timestamp = s.timestamp
      ∧ ((restart m s).cycle = s.cycle + 1
        ∨ s.iteration = s.cycle * m ∧ (restart m s).cycle = s.cycle
          ∧ (restart m s).rpcCount = s.rpcCount) := by
  unfold restart
  split_ifs with h
  · exact ⟨rfl, Or.inl rfl⟩
  · exact ⟨rfl, Or.inr ⟨not_not.mp h, rfl, rfl⟩⟩

theorem addProvisions_restarts (json : P → K) (m : ℚ) (s : RpcContext D W P A) (channel : Channel)
    (provisions : List P) : Restarts m s (addProvisions H json m s channel provisions) := by
  unfold addProvisions
  dsimp only
  split
  · exact ⟨(restart_spec m _).1, by unfold restart; split <;> rfl, (restart_spec m _).2⟩
  · exact ⟨(restart_spec m _).1, by unfold restart; split <;> rfl, (restart_spec m _).2⟩

theorem clearProvisions_restarts (m : ℚ) (s : RpcContext D W P A) :
    Restarts m s (clearProvisions H m s) := by
  unfold clearProvisions
  dsimp only
  split
  · exact ⟨(restart_spec m _).1, rfl, (restart_spec m _).2⟩
  · exact ⟨(restart_spec m _).1, rfl, (restart_spec m _).2⟩

end

end Rpc

end GenieAcs
