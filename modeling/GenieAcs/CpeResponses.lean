import GenieAcs.Downloads
import GenieAcs.ParameterNames
import GenieAcs.SessionRequests
import GenieAcs.Unpack

/-!
# Responses of the CPE

A response is stored in the device data when its kind answers the outstanding
request. Adding an object takes three requests: the last two are made from what
the responses to their predecessors say, and this comes before the kinds of the
response and the request are compared. An error that is thrown ends the process,
and what was written before it is lost.

What the program does with names that have aliases in a response is left open.
-/

namespace GenieAcs

/-! ## Messages -/

/-- A request of the ACS. Adding an object is followed by `getInstanceKeys`, and
getting values with `instanceValues` by `setInstanceKeys`. -/
inductive RpcRequest where
  | getParameterNames (parameterPath : JsString) (nextLevel : Bool)
  | getParameterValues (parameterNames : List JsString)
      (instanceValues : Option (InsMap JsString JsString))
  | getParameterAttributes (parameterNames : List JsString)
  | setParameterValues (parameterList : List (JsString × Option Value × Option Value))
      (datetimeMilliseconds booleanLiteral : Bool)
  | setParameterAttributes
      (parameterList : List (JsString × Option ℚ × Option (List (Option Value))))
  | addObject (objectName : JsString) (instanceValues : InsMap JsString JsString)
  | deleteObject (objectName : JsString)
  | factoryReset
  | reboot
  | download (rpc : Download)

/-- A response of the CPE with what `rpcResponse` reads of it. -/
inductive RpcResponse where
  | getParameterNames (parameterList : List (Segments × Bool × Bool))
  | getParameterValues (parameterList : List (Segments × Value × JsString))
  | getParameterAttributes (parameterList : List (Segments × ℚ × List (Option Value)))
  | setParameterValues
  | setParameterAttributes
  | addObject (instanceNumber : JsString)
  | deleteObject
  | factoryReset
  | reboot
  | download (rpc : DownloadResponse)

def RpcRequest.name : RpcRequest → String
  | getParameterNames .. => "GetParameterNames"
  | getParameterValues .. => "GetParameterValues"
  | getParameterAttributes .. => "GetParameterAttributes"
  | setParameterValues .. => "SetParameterValues"
  | setParameterAttributes .. => "SetParameterAttributes"
  | addObject .. => "AddObject"
  | deleteObject .. => "DeleteObject"
  | factoryReset => "FactoryReset"
  | reboot => "Reboot"
  | download .. => "Download"

/-- What is to follow the request, by the name that `rpcResponse` reads. -/
def RpcRequest.next : RpcRequest → Option String
  | addObject .. => some "getInstanceKeys"
  | getParameterValues _ (some _) => some "setInstanceKeys"
  | _ => none

namespace RpcResponse

def name : RpcResponse → String
  | getParameterNames .. => "GetParameterNamesResponse"
  | getParameterValues .. => "GetParameterValuesResponse"
  | getParameterAttributes .. => "GetParameterAttributesResponse"
  | setParameterValues => "SetParameterValuesResponse"
  | setParameterAttributes => "SetParameterAttributesResponse"
  | addObject .. => "AddObjectResponse"
  | deleteObject => "DeleteObjectResponse"
  | factoryReset => "FactoryResetResponse"
  | reboot => "RebootResponse"
  | download .. => "DownloadResponse"

/-- `parameterList`, whatever its elements are. -/
def parameterList : RpcResponse → Option (List (Segments × AttrValue × AttrValue))
  | getParameterNames list =>
      some (list.map fun p => (p.1, .scalar (some (.bool p.2.1)), .scalar (some (.bool p.2.2))))
  | getParameterValues list =>
      some (list.map fun p => (p.1, .scalar (some p.2.1), .scalar (some (.str p.2.2))))
  | getParameterAttributes list => some (list.map fun p => (p.1, .num p.2.1, .array p.2.2))
  | _ => none

def instanceNumber : RpcResponse → Option JsString
  | addObject instanceNumber => some instanceNumber
  | _ => none

/-- The response is of the kind that answers the request. -/
def Fits (rpcRes : RpcResponse) (rpcReq : RpcRequest) : Prop :=
  rpcRes.name = rpcReq.name ++ "Response"

instance (rpcRes : RpcResponse) (rpcReq : RpcRequest) : Decidable (rpcRes.Fits rpcReq) :=
  inferInstanceAs (Decidable (_ = _))

end RpcResponse

inductive Thrown where
  | error (message : String)
  | typeError
  deriving DecidableEq

/-- What a session context has on requests and on its device. -/
structure RpcSession (P : Type) extends DeviceSession P where
  rpcRequest : Option RpcRequest
  cycle : Nat
  rpcCount : Nat

def invalidResponse (message : String) : Fault := ⟨"invalid_response", message, none⟩

/-! ## Paths -/

def parsePathText (p : JsString) : Except Thrown Segments :=
  match parsePath p with
  | some path => .ok path
  | none => .error (.error "Invalid parameter path")

def plain? (path : Segments) : Option Path :=
  path.mapM fun
    | .name s => some s
    | .aliases _ => none

/-- `device.set` looks its path up in a set of paths. -/
def plainPath (path : Segments) : Except Thrown Path :=
  match plain? path with
  | some path => .ok path
  | none => .error (.error "PathSet does not support aliased paths")

/-- `toString` of a path without aliases. -/
def plainText (path : Path) : JsString := pathText (path.map .name)

/-! ## What follows a request -/

section

/- `Date.parse`. -/
variable (parseDate : JsString → JsNumber)

/-- An infinite number is none that can be stored. -/
def Sanitized.value : Sanitized → Option Value
  | bool b => some (.bool b)
  | number (some (some q)) => some (.num q)
  | number _ => none
  | text s => some (.str s)

/-- `sanitizeParameterValue` of a key, which may be missing. -/
def sanitizeKey (val : Option JsString) (type : Option Value) : Option Value :=
  val.bind fun val => (sanitizeText parseDate val type).value

/-- A list of strings is no type. -/
def AttrValue.single : AttrValue → Option Value
  | scalar v => v
  | array _ => none

/-- The first part of `rpcResponse`: the request that follows the outstanding one
at once. -/
def RpcRequest.following (rpcReq : RpcRequest) (rpcRes : RpcResponse)
    (datetimeMilliseconds booleanLiteral : Bool) : Except Thrown (Option RpcRequest) :=
  match rpcReq with
  | .addObject objectName instanceValues =>
      let values := instanceValues.entries.map fun e =>
        (objectName ++ rpcRes.instanceNumber.getD (js "undefined") ++ js "." ++ e.1, e.2)
      if values = [] then .ok none
      else .ok (some (.getParameterValues (values.map Prod.fst)
        (some (values.foldl (fun m e => m.set e.1 e.2) .empty))))
  | .getParameterValues _ (some instanceValues) =>
      match rpcRes.parameterList with
      -- `res.parameterList` is not iterable
      | none => .error .typeError
      | some list =>
          let changed := list.filter fun p =>
            p.2.1 ≠ .scalar ((instanceValues.get? (pathText p.1)).map Value.str)
          let values := changed.map fun p =>
            (pathText p.1, sanitizeKey parseDate (instanceValues.get? (pathText p.1)) p.2.2.single,
              p.2.2.single)
          if values = [] then .ok none
          else .ok (some (.setParameterValues values datetimeMilliseconds booleanLiteral))
  | _ => .ok none

end

namespace RpcSession

variable {P : Type}

/-! ## Storing a response -/

/-- What is left open: a `GetParameterNamesResponse` with aliases. -/
abbrev AliasedNames (P : Type) := RpcSession P → JsString → Bool →
  List (Segments × Bool × Bool) → Except Thrown (RpcSession P)

section

variable (s : RpcSession P)

/-- `sessionContext.timestamp + sessionContext.iteration`. -/
def readTime : Timestamp := (s.timestamp + s.iteration : Nat)

/-- Attributes with one timestamp. -/
def stamped (timestamp : Timestamp) (values : List (AttrName × AttrValue)) : Attributes :=
  fun a => (values.lookup a).map fun v => (timestamp, v)

/-- Calls of `set`, then the clears they return. -/
def write (timestamp : Timestamp) (sets : List (Segments × Option Attributes)) :
    Except Thrown (RpcSession P) := do
  let sets ← sets.mapM fun e => (plainPath e.1).map fun path => (path, e.2)
  return { s with deviceData := (DeviceData.Batch.mk timestamp sets).run s.deviceData }

/-- `write` for paths that are parsed. -/
def writeParsed (timestamp : Timestamp) (sets : List (JsString × Option Attributes)) :
    Except Thrown (RpcSession P) := do
  let sets ← sets.mapM fun e => (parsePathText e.1).map fun path => (path, e.2)
  s.write timestamp sets

/-- The parameters of a response that were requested, each once, and the
requested ones that are not in it. -/
def requestedOf {V : Type} (parameterNames : List JsString) (list : List (Segments × V)) :
    List (Segments × V) × List JsString :=
  list.foldl (fun r p =>
    if pathText p.1 ∈ r.2 then (r.1 ++ [p], r.2.erase (pathText p.1)) else r)
    ([], parameterNames.eraseDups)

/-- The branches for a response to a list of names; `absent` are the values of
a parameter that the CPE left out. -/
def storeReported (parameterNames : List JsString)
    (list : List (Segments × List (AttrName × AttrValue)))
    (absent : List (AttrName × AttrValue)) : Except Thrown (RpcSession P) := do
  let (reported, missing) := requestedOf parameterNames list
  let missing ← missing.mapM fun p => (parsePathText p).map fun path => (path, absent)
  s.write s.readTime ((reported ++ missing).map fun p => (p.1, some (stamped s.readTime p.2)))

def storeValues (parameterNames : List JsString) (list : List (Segments × Value × JsString)) :
    Except Thrown (RpcSession P) :=
  s.storeReported parameterNames
    (list.map fun p => (p.1, [(.object, .num 0),
      (.value, .array [some p.2.1, some (.str p.2.2)])]))
    [(.object, .num 0), (.value, .array [some (.str []), some (.str (js "xsd:string"))])]

def storeAttributes (parameterNames : List JsString)
    (list : List (Segments × ℚ × List (Option Value))) : Except Thrown (RpcSession P) :=
  s.storeReported parameterNames
    (list.map fun p => (p.1, [(.notification, .num p.2.1), (.accessList, .array p.2.2)]))
    [(.notification, .num 0), (.accessList, .array [])]

/-- The parameters that a response for the root does not list. -/
def rootNames : List JsString :=
  [js "DeviceID", js "Events", js "Tags", js "Reboot", js "FactoryReset", js "VirtualParameters",
    js "Downloads"]

def touchRoots (timestamp : Timestamp) (d : DeviceData) : DeviceData :=
  rootNames.foldl (fun d n =>
    if [n] ∈ d.paths ∧ (d.attributes.get? [n]).isSome = true then
      { d with timestamps := d.timestamps.set [n] timestamp } else d) d

/-- A parameter below the one that was requested, or this parameter. -/
def isExpected (parameterPath : JsString) (nextLevel : Bool) (p : ParameterName) : Bool :=
  parameterPath.isPrefixOf (plainText p.path)
    || (plainText p.path ++ js "." = parameterPath && !nextLevel)

def boolNum (b : Bool) : AttrValue := .num (if b then 1 else 0)

def storeNames (path : JsString) (nextLevel : Bool) (list : List ParameterName) :
    Except Thrown (RpcSession P) := do
  let root ← parsePathText (if path.getLast? = some '.'.toNat then path.dropLast else path)
  let expected := (ParameterName.filledNames list).filter (isExpected path nextLevel)
  let wildcardParams := (root ++ [.name star]) ::
    (expected.filter fun p => p.object && !nextLevel).map fun p => (p.path ++ [star]).map .name
  let s := if root = [] then { s with deviceData := touchRoots s.readTime s.deviceData } else s
  s.write s.readTime
    (expected.map (fun p => (p.path.map .name, some (stamped s.readTime
        [(.object, boolNum p.object), (.writable, boolNum p.writable)])))
      ++ wildcardParams.map fun p => (p, none))

/-- The attributes of `SetParameterAttributes`; without any, the parameter is
deleted. -/
def assigned (p : JsString × Option ℚ × Option (List (Option Value))) : Option Attributes :=
  match p.2 with
  | (some n, some l) =>
      some (stamped s.writeTime [(.notification, .num n), (.accessList, .array l)])
  | (some n, none) => some (stamped s.writeTime [(.notification, .num n)])
  | (none, some l) => some (stamped s.writeTime [(.accessList, .array l)])
  | (none, none) => none

/-- The value of `Reboot` and `FactoryReset` is the time of the session. -/
def storeTime (name : JsString) : Except Thrown (RpcSession P) :=
  s.write s.writeTime
    [([.name name], some (stamped s.writeTime [(.value, xsdDateTime s.timestamp)]))]

/-! ## `rpcResponse` -/

/-- The answer to a response that was stored. -/
def accept (r : Except Thrown (RpcSession P)) : Except Thrown (RpcSession P × Option Fault) :=
  r.map fun s => (s, none)

/-- `invalidResponse("Response name does not match request name")`. -/
def refuse : Except Thrown (RpcSession P × Option Fault) :=
  .ok (s, some (invalidResponse "Response name does not match request name"))

variable (aliasedNames : AliasedNames P)

/-- The branches of `rpcResponse`. -/
def store (rpcReq : RpcRequest) (rpcRes : RpcResponse) :
    Except Thrown (RpcSession P × Option Fault) :=
  match rpcRes with
  | .getParameterValues list =>
      match rpcReq with
      | .getParameterValues parameterNames _ => accept (s.storeValues parameterNames list)
      | _ => s.refuse
  | .getParameterAttributes list =>
      match rpcReq with
      | .getParameterAttributes parameterNames => accept (s.storeAttributes parameterNames list)
      | _ => .error (.error "Response name does not match request name")
  | .getParameterNames list =>
      match rpcReq with
      | .getParameterNames path nextLevel =>
          match list.mapM fun p => (plain? p.1).map fun path =>
              (⟨path, p.2.1, p.2.2⟩ : ParameterName) with
          | some list => accept (s.storeNames path nextLevel list)
          | none => accept (aliasedNames s path nextLevel list)
      | _ => s.refuse
  | .setParameterValues =>
      match rpcReq with
      | .setParameterValues parameterList _ _ =>
          accept (s.writeParsed s.writeTime (parameterList.map fun p => (p.1,
            some (stamped s.writeTime [(.object, .num 0), (.value, .array [p.2.1, p.2.2])]))))
      | _ => s.refuse
  | .setParameterAttributes =>
      match rpcReq with
      | .setParameterAttributes parameterList =>
          accept (s.writeParsed s.writeTime (parameterList.map fun p => (p.1, s.assigned p)))
      | _ => s.refuse
  | .addObject instanceNumber =>
      match rpcReq with
      | .addObject objectName _ =>
          accept (s.writeParsed s.writeTime
            [(objectName ++ instanceNumber, some (stamped s.writeTime [(.object, .num 1)]))])
      | _ => s.refuse
  | .deleteObject =>
      match rpcReq with
      | .deleteObject objectName => accept (s.writeParsed s.writeTime [(objectName.dropLast, none)])
      | _ => s.refuse
  | .reboot =>
      match rpcReq with
      | .reboot => accept (s.storeTime (js "Reboot"))
      | _ => s.refuse
  | .factoryReset =>
      match rpcReq with
      | .factoryReset => accept (s.storeTime (js "FactoryReset"))
      | _ => s.refuse
  | .download rpcRes =>
      match rpcReq with
      | .download rpcReq =>
          accept (.ok { s with toDeviceSession := s.downloadResponse rpcReq rpcRes })
      | _ => s.refuse

variable (parseDate : JsString → JsNumber)

def generateRpcId : JsString := rpcId s.timestamp s.cycle s.rpcCount

/-- The two flags are the configuration that a request to set values is sent with. -/
def rpcResponse (id : JsString) (rpcRes : RpcResponse)
    (datetimeMilliseconds booleanLiteral : Bool) : Except Thrown (RpcSession P × Option Fault) :=
  if id ≠ s.generateRpcId then .ok (s, some (invalidResponse "Request ID not recognized"))
  else
    match s.rpcRequest with
    | none => .error .typeError
    | some rpcReq => do
        let next ← rpcReq.following parseDate rpcRes datetimeMilliseconds booleanLiteral
        { s with rpcCount := s.rpcCount + 1, rpcRequest := next }.store aliasedNames rpcReq rpcRes

end

/-! ## What a response leads to -/

section

variable {s : RpcSession P} {rpcReq : RpcRequest} {rpcRes : RpcResponse}
  {datetimeMilliseconds booleanLiteral : Bool}

/-- The response is rejected, and nothing stored has changed. -/
def Rejects (s : RpcSession P) (r : Except Thrown (RpcSession P × Option Fault)) : Prop :=
  ∃ s' message, r = .ok (s', some (invalidResponse message))
    ∧ s'.deviceData.attributes = s.deviceData.attributes
    ∧ s'.deviceData.timestamps = s.deviceData.timestamps

theorem accept_ne_fault {r : Except Thrown (RpcSession P)} {s' : RpcSession P} {fault : Fault} :
    accept r ≠ .ok (s', some fault) := by
  cases r with
  | error e => exact fun h => nomatch h
  | ok s => exact fun h => nomatch h

/-- A response of another kind is refused before anything is stored, or its error
is thrown. -/
theorem store_of_not_fits (s : RpcSession P) (aliasedNames : AliasedNames P)
    (h : ¬ rpcRes.Fits rpcReq) :
    s.store aliasedNames rpcReq rpcRes
      = if rpcRes.name = "GetParameterAttributesResponse" then
          .error (.error "Response name does not match request name")
        else s.refuse := by
  cases rpcRes <;> cases rpcReq <;> first | rfl | exact absurd rfl h

/-- A stored response answers the request. -/
theorem store_fits {aliasedNames : AliasedNames P} {s' : RpcSession P}
    (h : s.store aliasedNames rpcReq rpcRes = .ok (s', none)) : rpcRes.Fits rpcReq := by
  by_contra hfits
  rw [store_of_not_fits s aliasedNames hfits] at h
  split at h
  · exact nomatch h
  · exact nomatch h

/-- A refused response leaves the session as it is. -/
theorem store_fault {aliasedNames : AliasedNames P} {s' : RpcSession P} {fault : Fault}
    (h : s.store aliasedNames rpcReq rpcRes = .ok (s', some fault)) :
    s' = s ∧ fault = invalidResponse "Response name does not match request name" := by
  by_cases hfits : rpcRes.Fits rpcReq
  · refine absurd hfits ?_
    cases rpcRes <;> cases rpcReq <;> first
      | exact absurd h accept_ne_fault
      | simp [RpcResponse.Fits, RpcResponse.name, RpcRequest.name]
    -- the names of the response have aliases or not
    unfold store at h
    dsimp only at h
    split at h <;> exact absurd h accept_ne_fault
  · rw [store_of_not_fits s aliasedNames hfits] at h
    split at h
    · exact nomatch h
    · obtain ⟨rfl, hfault⟩ := Prod.mk.inj (Except.ok.inj h)
      exact ⟨rfl, (Option.some.inj hfault).symm⟩

/-- What follows a request is found for every response, unless the keys of an
instance are to be set from a response without parameters. -/
theorem following_eq_error {parseDate : JsString → JsNumber} {e : Thrown} :
    rpcReq.following parseDate rpcRes datetimeMilliseconds booleanLiteral = .error e
      ↔ e = .typeError ∧ rpcReq.next = some "setInstanceKeys" ∧ rpcRes.parameterList = none := by
  cases rpcReq with
  | addObject objectName instanceValues =>
      refine iff_of_false (fun h => ?_) fun h => ?_
      · unfold RpcRequest.following at h
        dsimp only at h
        split at h <;> cases h
      · simp [RpcRequest.next] at h
  | getParameterValues parameterNames instanceValues =>
      cases instanceValues with
      | none => exact iff_of_false (by simp [RpcRequest.following]) (by simp [RpcRequest.next])
      | some instanceValues =>
          unfold RpcRequest.following
          cases hlist : rpcRes.parameterList with
          | none => exact ⟨fun h => ⟨(Except.error.inj h).symm, rfl, rfl⟩, fun h => by rw [h.1]⟩
          | some list =>
              refine iff_of_false (fun h => ?_) (by simp)
              dsimp only at h
              split at h <;> cases h
  | _ => exact iff_of_false (by simp [RpcRequest.following]) (by simp [RpcRequest.next])

/-- A response that throws nothing has another id, or is handed to its branch. -/
theorem rpcResponse_ok {aliasedNames : AliasedNames P} {parseDate : JsString → JsNumber}
    {id : JsString} {r : RpcSession P × Option Fault}
    (h : s.rpcResponse aliasedNames parseDate id rpcRes datetimeMilliseconds booleanLiteral
      = .ok r) :
    (id ≠ s.generateRpcId ∧ r = (s, some (invalidResponse "Request ID not recognized")))
      ∨ (id = s.generateRpcId ∧ ∃ rpcReq next, s.rpcRequest = some rpcReq
        ∧ store { s with rpcCount := s.rpcCount + 1, rpcRequest := next } aliasedNames rpcReq rpcRes
          = .ok r) := by
  unfold rpcResponse at h
  split at h
  · rename_i hid
    exact Or.inl ⟨hid, (Except.ok.inj h).symm⟩
  · rename_i hid
    refine Or.inr ⟨not_not.mp hid, ?_⟩
    split at h
    · exact nomatch h
    · rename_i rpcReq hreq
      cases hnext : rpcReq.following parseDate rpcRes datetimeMilliseconds booleanLiteral with
      | error e =>
          rw [hnext] at h
          exact nomatch h
      | ok next =>
          rw [hnext] at h
          exact ⟨rpcReq, next, hreq, h⟩

/-- An accepted response answers the outstanding request. -/
theorem rpcResponse_accepts {aliasedNames : AliasedNames P} {parseDate : JsString → JsNumber}
    {id : JsString} {s' : RpcSession P}
    (h : s.rpcResponse aliasedNames parseDate id rpcRes datetimeMilliseconds booleanLiteral
      = .ok (s', none)) :
    id = s.generateRpcId ∧ ∃ rpcReq, s.rpcRequest = some rpcReq ∧ rpcRes.Fits rpcReq := by
  rcases rpcResponse_ok h with ⟨-, heq⟩ | ⟨hid, rpcReq, next, hreq, hstore⟩
  · exact nomatch heq
  · exact ⟨hid, rpcReq, hreq, store_fits hstore⟩

/-- A fault leaves the device data as it was, whatever the response is. -/
theorem rpcResponse_fault {aliasedNames : AliasedNames P} {parseDate : JsString → JsNumber}
    {id : JsString} {s' : RpcSession P} {fault : Fault}
    (h : s.rpcResponse aliasedNames parseDate id rpcRes datetimeMilliseconds booleanLiteral
      = .ok (s', some fault)) :
    fault.code = "invalid_response" ∧ s'.deviceData = s.deviceData := by
  rcases rpcResponse_ok h with ⟨-, heq⟩ | ⟨-, rpcReq, next, -, hstore⟩
  · obtain ⟨rfl, hfault⟩ := Prod.mk.inj heq
    rw [Option.some.inj hfault]
    exact ⟨rfl, rfl⟩
  · obtain ⟨rfl, rfl⟩ := store_fault hstore
    exact ⟨rfl, rfl⟩

/-- The errors of a response that does not fit. -/
theorem rpcResponse_of_not_fits (s : RpcSession P) (aliasedNames : AliasedNames P)
    (parseDate : JsString → JsNumber) (hreq : s.rpcRequest = some rpcReq)
    (h : ¬ rpcRes.Fits rpcReq) :
    s.rpcResponse aliasedNames parseDate s.generateRpcId rpcRes datetimeMilliseconds booleanLiteral
      = (rpcReq.following parseDate rpcRes datetimeMilliseconds booleanLiteral).bind fun next =>
          if rpcRes.name = "GetParameterAttributesResponse" then
            .error (.error "Response name does not match request name")
          else refuse { s with rpcCount := s.rpcCount + 1, rpcRequest := next } := by
  unfold rpcResponse
  rw [if_neg (fun h => h rfl), hreq]
  dsimp only
  refine congrArg _ (funext fun next => ?_)
  rw [store_of_not_fits _ _ h]

/-- A response that does not answer the outstanding request is rejected unless it
is one to `GetParameterAttributes`, or has no parameters to set keys from. -/
theorem rpcResponse_rejects_iff (s : RpcSession P) (aliasedNames : AliasedNames P)
    (parseDate : JsString → JsNumber) (id : JsString) (rpcReq : RpcRequest)
    (rpcRes : RpcResponse) (datetimeMilliseconds booleanLiteral : Bool)
    (hreq : s.rpcRequest = some rpcReq) (hkind : ¬ rpcRes.Fits rpcReq) :
    s.Rejects (s.rpcResponse aliasedNames parseDate id rpcRes datetimeMilliseconds booleanLiteral)
      ↔ (id = s.generateRpcId → rpcRes.name ≠ "GetParameterAttributesResponse"
        ∧ (rpcReq.next = some "setInstanceKeys" → rpcRes.name = "GetParameterNamesResponse")) := by
  by_cases hid : id = s.generateRpcId
  · subst hid
    rw [rpcResponse_of_not_fits s aliasedNames parseDate hreq hkind]
    simp only [forall_const]
    cases hnext : rpcReq.following parseDate rpcRes datetimeMilliseconds booleanLiteral with
    | error e =>
        obtain ⟨-, hset, hlist⟩ := following_eq_error.mp hnext
        refine iff_of_false (fun ⟨_, _, h, _⟩ => nomatch h) fun h => ?_
        -- a list of names could have been gone through
        have hname := h.2 hset
        cases rpcRes with
        | getParameterNames list => exact nomatch hlist
        | _ => simp [RpcResponse.name] at hname
    | ok next =>
        have hlist : rpcReq.next = some "setInstanceKeys" → rpcRes.parameterList ≠ none := by
          intro hset hnone
          rw [following_eq_error.mpr ⟨rfl, hset, hnone⟩] at hnext
          exact nomatch hnext
        by_cases hattr : rpcRes.name = "GetParameterAttributesResponse"
        · refine iff_of_false (fun ⟨_, _, h, _⟩ => ?_) fun h => h.1 hattr
          simp only [Except.bind, if_pos hattr] at h
          exact nomatch h
        · refine iff_of_true ?_ ⟨hattr, fun hset => ?_⟩
          · simp only [Except.bind, if_neg hattr]
            exact ⟨_, _, rfl, rfl, rfl⟩
          · have hvalues : rpcRes.name ≠ "GetParameterValuesResponse" := by
              intro heq
              refine hkind ?_
              rw [RpcResponse.Fits, heq]
              cases rpcReq with
              | getParameterValues names values => rfl
              | _ => simp [RpcRequest.next] at hset
            have hsome := hlist hset
            cases rpcRes <;> first
              | rfl
              | exact absurd rfl hsome
              | exact absurd rfl hattr
              | exact absurd rfl hvalues
  · refine iff_of_true ?_ fun h => absurd h hid
    rw [rpcResponse, if_pos hid]
    exact ⟨_, _, rfl, rfl, rfl⟩

end

/-! ## Responses to the last request of an instance -/

/-- A session whose outstanding request is to set the keys of a new instance. -/
def keysSession : RpcSession Unit where
  toDeviceSession := DeviceSession.newSession 1000
  rpcRequest := some (.getParameterValues [js "A.1.B"]
    (some (InsMap.empty.set (js "A.1.B") (js "x"))))
  cycle := 0
  rpcCount := 1

theorem rpcResponse_rejects_names :
    let s : RpcSession Unit := keysSession
    s.rpcRequest = some (.getParameterValues [js "A.1.B"]
        (some (InsMap.empty.set (js "A.1.B") (js "x"))))
      ∧ s.Rejects (s.rpcResponse (fun s _ _ _ => .ok s) (fun _ => none) s.generateRpcId
        (.getParameterNames []) true true) :=
  ⟨rfl, (rpcResponse_rejects_iff keysSession _ _ _ _ (.getParameterNames []) true true rfl
    (by decide)).mpr fun _ => ⟨by decide, fun _ => rfl⟩⟩

/-- The CPE answers with a `RebootResponse`, and its parameters are gone
through. -/
theorem rebootResponse_throws :
    ¬ ∀ (s : RpcSession Unit) (rpcReq : RpcRequest) (rpcRes : RpcResponse),
      s.rpcRequest = some rpcReq → ¬ rpcRes.Fits rpcReq →
        s.Rejects (s.rpcResponse (fun s _ _ _ => .ok s) (fun _ => none) s.generateRpcId rpcRes
          true true) := by
  intro h
  obtain ⟨_, _, hres, -⟩ := h keysSession _ .reboot rfl (by decide)
  have hthrows : keysSession.rpcResponse (fun s _ _ _ => .ok s) (fun _ => none)
      keysSession.generateRpcId .reboot true true = .error .typeError := rfl
  rw [hthrows] at hres
  exact nomatch hres

end RpcSession

end GenieAcs
