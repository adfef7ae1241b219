import Mathlib.Logic.Function.Basic
import GenieAcs.Lib.Custody

/-!
# Who handles a CWMP session

The part of `lib/cwmp.ts` that moves a session context between requests,
connections and the shared cache: `listenerAsync`, `processRequest`,
`writeResponse`, `clientError`, `reportBadState`, `responseUnauthorized` and
`onConnection`. Any number of requests, sockets and worker processes run
interleaved; one `Action` is what runs between two `await`s, so every order
of these pieces is a run. `currentSessions` is one map, as sockets belong to
one worker only.

A context is modelled by the fields these functions branch on. What a session
does with a request (`session.rpcRequest` and so on) is the environment's
choice (`Env`): it decides whether there is another request for the CPE and
whether something throws.
-/

namespace GenieAcs

namespace Cwmp

abbrev Socket := Nat
abbrev SessionId := Nat

def MAX_SESSION_DURATION : Nat := 300000
def LOCK_REFRESH_INTERVAL : Nat := 10000
def CLOCK_SKEW_TOLERANCE : Nat := 30000

/-- The fields of a session context that decide who handles it. `timeout` is
in seconds, the times are in milliseconds. -/
structure SessionContext where
  sessionId : SessionId
  timestamp : Nat
  timeout : Nat
  state : Nat
  authState : Nat
  lastActivity : Option Nat
  extendLock : Nat
  deriving DecidableEq

/-- What `soap.request` makes of a body; `otherRequest` is a CPE request the
ACS does not support, `empty` a message without one. -/
inductive SoapMessage
  | inform
  | transferComplete
  | getRPCMethods
  | otherRequest
  | cpeResponse
  | cpeFault
  | unknownMethod
  | empty
  deriving DecidableEq

inductive Body
  | unknownEncoding
  | parseError
  | rpc (message : SoapMessage)
  deriving DecidableEq

/-- What the environment decides while a request is processed. -/
structure Env where
  throws : Bool
  authenticated : Bool
  lockToken : Bool
  sessionTimeout : Nat
  acsRequest : Bool

/-- How the processing of a request comes to its end. -/
inductive Outcome
  /-- `writeResponse`, the session goes on. -/
  | respond
  /-- `writeResponse` with `close`. -/
  | close
  | reportBadState
  /-- `responseUnauthorized(sessionContext, false)`. -/
  | unauthorized
  /-- A last response without the session: no credentials or no lock. -/
  | refuse
  /-- `endSession`, then `responseUnauthorized(sessionContext, true)`. -/
  | refuseAndEnd
  | throw
  deriving DecidableEq

/-- `nextRpc`: the next request for the CPE, or the empty last response. -/
def nextRpc (env : Env) : Outcome :=
  if env.throws then .throw else if env.acsRequest then .respond else .close

/-- `processRequest` of an authenticated session in state 1 or 2. -/
def dispatch (ctx : SessionContext) (rpc : SoapMessage) (env : Env) :
    SessionContext × Outcome :=
  match rpc with
  | .transferComplete =>
      if ctx.state ≠ 1 then (ctx, .reportBadState)
      else (ctx, if env.throws then .throw else .respond)
  | .getRPCMethods => (ctx, if ctx.state ≠ 1 then .reportBadState else .respond)
  | .inform => (ctx, .reportBadState)
  | .otherRequest => (ctx, if ctx.state ≠ 1 then .reportBadState else .throw)
  | .cpeResponse | .cpeFault => (ctx, if ctx.state ≠ 2 then .reportBadState else nextRpc env)
  | .unknownMethod =>
      (ctx, if ctx.state = 1 then .respond else if ctx.state = 2 then nextRpc env
        else .reportBadState)
  | .empty =>
      if ctx.state ≠ 1 then (ctx, .reportBadState)
      else ({ ctx with state := 2 }, nextRpc env)

def processRequest (ctx : SessionContext) (rpc : SoapMessage) (env : Env) :
    SessionContext × Outcome :=
  if ctx.state = 0 then
    if rpc ≠ .inform then (ctx, .reportBadState)
    else if env.throws then (ctx, .throw)
    else
      let ctx := if ctx.timeout = 0 then { ctx with timeout := env.sessionTimeout } else ctx
      if !env.authenticated then
        if ctx.authState = 0 then ({ ctx with authState := 1 }, .unauthorized)
        else (ctx, .refuse)
      else
        let ctx := { ctx with extendLock := ctx.timestamp + LOCK_REFRESH_INTERVAL }
        if !env.lockToken then (ctx, .refuse)
        else ({ ctx with state := 1, authState := 2 }, .respond)
  -- Reauthenticate in case of new connection
  else if ctx.authState ≠ 2 then
    if env.throws then (ctx, .throw)
    else if !env.authenticated then
      if ctx.authState = 0 then ({ ctx with authState := 1 }, .unauthorized)
      else (ctx, .refuseAndEnd)
    else dispatch { ctx with authState := 2 } rpc env
  else dispatch ctx rpc env

/-! ## The world -/

/-- Where a request stands. -/
inductive Request
  | idle
  /-- The body is being read. -/
  | reading (socket : Socket) (cookie : Option SessionId) (body : Body)
  /-- Before `cache.pop`. -/
  | waiting (socket : Socket) (sessionId : SessionId) (body : Body) (wake : Nat)
  /-- Before the end of `deserialize`. -/
  | resuming (socket : Socket) (ctx : SessionContext) (body : Body)
  /-- An Inform whose session is being set up. -/
  | starting (socket : Socket)
  | processing (socket : Socket) (ctx : SessionContext) (rpc : SoapMessage)
  /-- Past the last use of the session: the lock is extended, or the session's
  end is written. -/
  | settling (socket : Socket)
  | done
  deriving DecidableEq

/-- Where `onConnection` of a socket stands. `remaining` is its `timeout`,
`none` where that is `NaN`. -/
inductive Connection
  | idle
  | opened (since : Nat)
  /-- Before the end of `cache.set`. -/
  | saving (ctx : SessionContext) (remaining : Option Int)
  /-- Before the timer's `cache.get`. -/
  | sleeping (ctx : SessionContext) (wake : Nat)
  /-- Before the end of `deserialize`, with what `cache.get` returned. -/
  | comparing (ctx : SessionContext) (found : SessionContext)
  /-- The timer ended the session. -/
  | ended (ctx : SessionContext)
  | done
  deriving DecidableEq

structure CacheEntry where
  value : SessionContext
  expire : Option Nat
  deriving DecidableEq

/-- `worked` is a request being processed on a session, `finished` is the start
of `endSession`. -/
abbrev Event := Custody.Event SessionId

structure World where
  now : Nat
  currentSessions : Socket → Option SessionContext
  destroyed : Socket → Bool
  cache : SessionId → Option CacheEntry
  request : Nat → Request
  connection : Socket → Connection
  /-- The session ids `crypto.randomBytes` has given. -/
  used : List SessionId
  /-- Newest first. -/
  log : List Event

def World.init : World :=
  { now := 0
    currentSessions := fun _ => none
    destroyed := fun _ => false
    cache := fun _ => none
    request := fun _ => .idle
    connection := fun _ => .idle
    used := []
    log := [] }

namespace World

def setRequest (w : World) (i : Nat) (r : Request) : World :=
  { w with request := Function.update w.request i r }

def setConnection (w : World) (socket : Socket) (c : Connection) : World :=
  { w with connection := Function.update w.connection socket c }

def setCurrent (w : World) (socket : Socket) (ctx : Option SessionContext) : World :=
  { w with currentSessions := Function.update w.currentSessions socket ctx }

def setCache (w : World) (sessionId : SessionId) (entry : Option CacheEntry) : World :=
  { w with cache := Function.update w.cache sessionId entry }

def emit (w : World) (e : Event) : World := { w with log := e :: w.log }

end World

/-! ## The pieces between two awaits -/

/-- `endSession` starts if the session has got past the Inform. -/
def endSessionIfStarted (w : World) (ctx : SessionContext) : World :=
  if ctx.state ≠ 0 then w.emit (.finished ctx.sessionId) else w

/-- `processRequest` starts. -/
def startProcessing (w : World) (i : Nat) (socket : Socket) (ctx : SessionContext)
    (rpc : SoapMessage) : World :=
  (w.setRequest i (.processing socket ctx rpc)).emit (.worked ctx.sessionId)

/-- The body is read. The cookie is compared with the session of the socket; a
request without one waits for `cache.pop`, or is an Inform. -/
def take (w : World) (i : Nat) (socket : Socket) (cookie : Option SessionId) (body : Body)
    (overloaded : Bool) : World :=
  match w.currentSessions socket with
  | some ctx =>
      let w' := w.setCurrent socket none
      if (cookie ≠ some ctx.sessionId ∧ ctx.state ≠ 0) ∨
          (∃ t ∈ ctx.lastActivity, t + ctx.timeout * 1000 < w.now) then
        endSessionIfStarted (w'.setRequest i (.settling socket)) ctx
      else
        match body with
        | .rpc rpc => startProcessing w' i socket ctx rpc
        | .unknownEncoding | .parseError =>
            endSessionIfStarted (w'.setRequest i (.settling socket)) ctx
  | none =>
      match cookie, body with
      | some _, .rpc .inform =>
          w.setRequest i (if overloaded then .done else .starting socket)
      | some sessionId, body => w.setRequest i (.waiting socket sessionId body (w.now + 100))
      | none, .rpc .inform => w.setRequest i (if overloaded then .done else .starting socket)
      | none, _ => w.setRequest i .done

/-- `cache.pop`. -/
def pop (w : World) (i : Nat) (socket : Socket) (sessionId : SessionId) (body : Body) : World :=
  match w.cache sessionId with
  | none => w.setRequest i .done
  | some entry => (w.setCache sessionId none).setRequest i (.resuming socket entry.value body)

def resume (w : World) (i : Nat) (socket : Socket) (ctx : SessionContext) (body : Body) : World :=
  match body with
  | .rpc rpc =>
      startProcessing w i socket
        (if ctx.authState ≠ 1 then { ctx with authState := 0 } else ctx) rpc
  | .unknownEncoding | .parseError =>
      endSessionIfStarted (w.setRequest i (.settling socket)) ctx

/-- `session.init` and the device's data. -/
def start (w : World) (i : Nat) (socket : Socket) (rpcTimeout : Nat) (sessionId : SessionId) :
    World :=
  startProcessing { w with used := sessionId :: w.used } i socket
    { sessionId := sessionId, timestamp := w.now, timeout := rpcTimeout, state := 0,
      authState := 0, lastActivity := none, extendLock := 0 } .inform

/-- The last synchronous part of `writeResponse`. -/
def writeResponse (w : World) (i : Nat) (socket : Socket) (ctx : SessionContext)
    (close : Bool) : World :=
  if w.destroyed socket then
    (w.setRequest i (.settling socket)).emit (.finished ctx.sessionId)
  else if close then
    (w.setRequest i (.settling socket)).emit (.finished ctx.sessionId)
  else
    let extend := decide (ctx.extendLock ≤ w.now)
    let ctx := { ctx with lastActivity := some w.now }
    let ctx := if extend then { ctx with extendLock := w.now + LOCK_REFRESH_INTERVAL } else ctx
    (w.setRequest i (if extend then .settling socket else .done)).setCurrent socket (some ctx)

/-- `processRequest` ends. -/
def finish (w : World) (i : Nat) (socket : Socket) (ctx : SessionContext) (rpc : SoapMessage)
    (env : Env) : World :=
  let r := processRequest ctx rpc env
  let w := w.emit (.worked ctx.sessionId)
  match r.2 with
  | .respond => writeResponse w i socket r.1 false
  | .close => writeResponse w i socket r.1 true
  | .reportBadState => endSessionIfStarted (w.setRequest i (.settling socket)) r.1
  | .unauthorized => (w.setRequest i .done).setCurrent socket (some r.1)
  | .refuse => w.setRequest i .done
  | .refuseAndEnd => (w.setRequest i (.settling socket)).emit (.finished r.1.sessionId)
  -- `listener` deletes the socket's session
  | .throw => (w.setRequest i .done).setCurrent socket none

/-- `onConnection` after the socket's close. -/
def closed (w : World) (socket : Socket) : World :=
  let w := { w with destroyed := Function.update w.destroyed socket true }
  match w.currentSessions socket with
  | none => w.setConnection socket .done
  | some ctx =>
      let w' := w.setCurrent socket none
      if ctx.authState ≠ 2 then w'.setConnection socket .done
      else
        let remaining := ctx.lastActivity.map fun t => ((t + ctx.timeout * 1000 : Nat) : Int) - w.now
        if ∃ r ∈ remaining, r ≤ 0 then
          (w'.setConnection socket .done).emit (.finished ctx.sessionId)
        else w'.setConnection socket (.saving ctx remaining)

/-- `cache.set`; the timer starts. A `NaN` delay is 1 ms. -/
def save (w : World) (socket : Socket) (ctx : SessionContext) (remaining : Option Int) : World :=
  let expire := remaining.map fun r =>
    w.now + CLOCK_SKEW_TOLERANCE + ((r.toNat + 999) / 1000 + 3) * 1000
  let wake := w.now + (remaining.map fun r => r.toNat + 1000).getD 1
  (w.setConnection socket (.sleeping ctx wake)).setCache ctx.sessionId
    (some { value := ctx, expire := expire })

/-- The timer's `cache.get`. -/
def cacheGet (w : World) (socket : Socket) (ctx : SessionContext) : World :=
  match w.cache ctx.sessionId with
  | none => w.setConnection socket .done
  | some entry => w.setConnection socket (.comparing ctx entry.value)

def compare (w : World) (socket : Socket) (ctx found : SessionContext) : World :=
  if found.lastActivity = ctx.lastActivity then
    (w.setConnection socket (.ended ctx)).emit (.finished ctx.sessionId)
  else w.setConnection socket .done

/-! ## Actions -/

inductive Action
  | tick (ms : Nat)
  | connect (socket : Socket)
  | destroy (socket : Socket)
  | arrive (i : Nat) (socket : Socket) (cookie : Option SessionId) (body : Body)
  | take (i : Nat) (overloaded : Bool)
  | pop (i : Nat)
  | resume (i : Nat)
  | start (i : Nat) (rpcTimeout : Nat) (sessionId : SessionId)
  | finish (i : Nat) (env : Env)
  | settle (i : Nat) (ok : Bool)
  | closed (socket : Socket)
  | save (socket : Socket)
  | wake (socket : Socket)
  | compare (socket : Socket)
  | expire (sessionId : SessionId)

/-- One action; `none` where it is not enabled. -/
def step (w : World) : Action → Option World
  | .tick ms => some { w with now := w.now + ms }
  | .connect socket =>
      match w.connection socket with
      | .idle => some (w.setConnection socket (.opened w.now))
      | _ => none
  | .destroy socket => some { w with destroyed := Function.update w.destroyed socket true }
  | .arrive i socket cookie body =>
      match w.request i, w.connection socket with
      | .idle, .opened _ =>
          if w.destroyed socket then none
          else some (w.setRequest i (.reading socket cookie body))
      | _, _ => none
  | .take i overloaded =>
      match w.request i with
      | .reading socket cookie body => some (take w i socket cookie body overloaded)
      | _ => none
  | .pop i =>
      match w.request i with
      | .waiting socket sessionId body wait =>
          if wait ≤ w.now then some (pop w i socket sessionId body) else none
      | _ => none
  | .resume i =>
      match w.request i with
      | .resuming socket ctx body => some (resume w i socket ctx body)
      | _ => none
  | .start i rpcTimeout sessionId =>
      match w.request i with
      | .starting socket =>
          if sessionId ∈ w.used then none else some (start w i socket rpcTimeout sessionId)
      | _ => none
  | .finish i env =>
      match w.request i with
      | .processing socket ctx rpc => some (finish w i socket ctx rpc env)
      | _ => none
  | .settle i ok =>
      match w.request i with
      | .settling socket =>
          -- a rejection reaches `listener`, which deletes the socket's session
          some (if ok then w.setRequest i .done
            else (w.setRequest i .done).setCurrent socket none)
      | _ => none
  | .closed socket =>
      match w.connection socket with
      | .opened since =>
          if w.destroyed socket ∨ since + MAX_SESSION_DURATION ≤ w.now then
            some (closed w socket)
          else none
      | _ => none
  | .save socket =>
      match w.connection socket with
      | .saving ctx remaining => some (save w socket ctx remaining)
      | _ => none
  | .wake socket =>
      match w.connection socket with
      | .sleeping ctx wait => if wait ≤ w.now then some (cacheGet w socket ctx) else none
      | _ => none
  | .compare socket =>
      match w.connection socket with
      | .comparing ctx found => some (compare w socket ctx found)
      | _ => none
  | .expire sessionId =>
      match w.cache sessionId with
      | some entry =>
          if ∃ t ∈ entry.expire, t < w.now then some (w.setCache sessionId none) else none
      | none => none

end Cwmp

end GenieAcs
