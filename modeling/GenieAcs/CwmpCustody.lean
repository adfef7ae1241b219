import GenieAcs.CwmpSession

/-!
# A session is ended once

The world of `CwmpSession` seen as custody of sessions (`custody`): a session
is held by a socket's entry in `currentSessions`, by the request that handles
it, by the `onConnection` that stores it, or by the cache; the timer an
`onConnection` leaves behind is the claim on what it stored. Every action is
a sequence of custody steps (`custody_step`) as long as it is `Orderly`, so
the safety of custody is that of the sessions (`endSession_once`).

`Orderly` leaves out what `onConnection` misses: the timer reads the cache
with `get` and leaves the entry there, so a late request can still take it.
-/

namespace GenieAcs

namespace Cwmp

open Custody (Place Phase)

inductive Party
  | socket (s : Socket)
  | request (i : Nat)
  | connection (s : Socket)
  deriving DecidableEq

abbrev Item := Custody.Item SessionId (Option Nat)
abbrev Timer := Custody.Timer SessionId (Option Nat)

/-- The context of a socket; `onConnection` stores it only if authenticated. -/
def SessionContext.item (ctx : SessionContext) : Item :=
  ⟨ctx.sessionId, if ctx.authState = 2 then some ctx.lastActivity else none⟩

def CacheEntry.item (entry : CacheEntry) : Item :=
  ⟨entry.value.sessionId, some entry.value.lastActivity⟩

def Request.item : Request → Option Item
  | .resuming _ ctx _ | .processing _ ctx _ => some ⟨ctx.sessionId, none⟩
  | _ => none

def Connection.item : Connection → Option Item
  | .saving ctx _ => some ⟨ctx.sessionId, some ctx.lastActivity⟩
  | _ => none

def Connection.timer : Connection → Option Timer
  | .sleeping ctx _ => some ⟨ctx.sessionId, ctx.lastActivity, .waiting⟩
  | .comparing ctx found =>
      if found.lastActivity = ctx.lastActivity then
        some ⟨ctx.sessionId, ctx.lastActivity, .claimed⟩
      else none
  | .ended ctx => some ⟨ctx.sessionId, ctx.lastActivity, .finished⟩
  | _ => none

def held (w : World) : Place Party SessionId → Option Item
  | .party (.socket s) => (w.currentSessions s).map SessionContext.item
  | .party (.request i) => (w.request i).item
  | .party (.connection s) => (w.connection s).item
  | .store sessionId => (w.cache sessionId).map CacheEntry.item

def custody (w : World) : Custody.State Party Socket SessionId (Option Nat) :=
  { held := held w
    timer := fun s => (w.connection s).timer
    log := w.log
    used := {sessionId | sessionId ∈ w.used} }

/-! ## The setters -/

theorem custody_setCurrent (w : World) (s : Socket) (ctx : Option SessionContext) :
    custody (w.setCurrent s ctx) = { custody w with
      held := Function.update (custody w).held (.party (.socket s))
        (ctx.map SessionContext.item) } := by
  simp only [custody, World.setCurrent, Custody.State.mk.injEq, and_true]
  funext l
  rcases l with (s' | i | s') | sessionId
  · by_cases hs : s' = s <;> simp [held, hs]
  all_goals simp [held]

theorem custody_setRequest (w : World) (i : Nat) (r : Request) :
    custody (w.setRequest i r) = { custody w with
      held := Function.update (custody w).held (.party (.request i)) r.item } := by
  simp only [custody, World.setRequest, Custody.State.mk.injEq, and_true]
  funext l
  rcases l with (s' | j | s') | sessionId
  · simp [held]
  · by_cases hj : j = i <;> simp [held, hj]
  all_goals simp [held]

theorem custody_setCache (w : World) (sessionId : SessionId) (entry : Option CacheEntry) :
    custody (w.setCache sessionId entry) = { custody w with
      held := Function.update (custody w).held (.store sessionId) (entry.map CacheEntry.item) } := by
  simp only [custody, World.setCache, Custody.State.mk.injEq, and_true]
  funext l
  rcases l with (s' | j | s') | id
  · simp [held]
  · simp [held]
  · simp [held]
  · by_cases hid : id = sessionId <;> simp [held, hid]

theorem custody_setConnection (w : World) (s : Socket) (c : Connection) :
    custody (w.setConnection s c) = { custody w with
      held := Function.update (custody w).held (.party (.connection s)) c.item
      timer := Function.update (custody w).timer s c.timer } := by
  simp only [custody, World.setConnection, Custody.State.mk.injEq, and_true]
  constructor
  · funext l
    rcases l with (s' | j | s') | id
    · simp [held]
    · simp [held]
    · by_cases hs : s' = s <;> simp [held, hs]
    · simp [held]
  · funext s'
    by_cases hs : s' = s <;> simp [hs]

theorem custody_emit (w : World) (e : Event) :
    custody (w.emit e) = { custody w with log := e :: (custody w).log } := rfl

/-! ## What the pieces do to the custody -/

abbrev Steps (w w' : World) : Prop :=
  Relation.ReflTransGen Custody.Step (custody w) (custody w')

theorem Steps.of_eq {w w' : World} (h : custody w' = custody w) : Steps w w' := by
  unfold Steps
  rw [h]

theorem steps_dropRequest (w : World) (i : Nat) {r : Request} (hr : r.item = none) :
    Steps w (w.setRequest i r) := by
  unfold Steps
  rw [custody_setRequest, hr]
  exact .single (.drop _ _)

theorem steps_dropCurrent (w : World) (s : Socket) : Steps w (w.setCurrent s none) := by
  unfold Steps
  rw [custody_setCurrent]
  exact .single (.drop _ _)

theorem steps_dropCache (w : World) (sessionId : SessionId) :
    Steps w (w.setCache sessionId none) := by
  unfold Steps
  rw [custody_setCache]
  exact .single (.drop _ _)

/-- An `onConnection` that has no timer and sets none. -/
theorem custody_setConnection_quiet {w : World} {s : Socket} {c : Connection}
    (hc : c.timer = none) (hw : (w.connection s).timer = none) :
    custody (w.setConnection s c) = { custody w with
      held := Function.update (custody w).held (.party (.connection s)) c.item } := by
  have hsame : Function.update (custody w).timer s none = (custody w).timer := by
    rw [Function.update_eq_self_iff]
    exact hw.symm
  rw [custody_setConnection, hc, hsame]

theorem steps_quietConnection (w : World) (s : Socket) {c : Connection} (hc : c.item = none)
    (ht : c.timer = none) (hw : (w.connection s).timer = none) :
    Steps w (w.setConnection s c) := by
  unfold Steps
  rw [custody_setConnection_quiet ht hw, hc]
  exact .single (.drop _ _)

theorem steps_sameRequest {w : World} {i : Nat} {r : Request}
    (hr : r.item = (w.request i).item) : Steps w (w.setRequest i r) := by
  refine .of_eq ?_
  rw [custody_setRequest, hr]
  have hsame : Function.update (custody w).held (.party (.request i)) (w.request i).item =
      (custody w).held := Function.update_eq_self _ _
  rw [hsame]

theorem steps_work {w : World} {i : Nat} {sessionId : SessionId}
    (hi : (w.request i).item = some ⟨sessionId, none⟩) : Steps w (w.emit (.worked sessionId)) :=
  .single (.work (custody w) (.request i) ⟨sessionId, none⟩ hi)

theorem steps_endRequest {w : World} {i : Nat} {sessionId : SessionId} (socket : Socket)
    (hi : (w.request i).item = some ⟨sessionId, none⟩) :
    Steps w ((w.setRequest i (.settling socket)).emit (.finished sessionId)) := by
  unfold Steps
  rw [custody_emit, custody_setRequest]
  exact .single (.finish (custody w) (.request i) ⟨sessionId, none⟩ hi)

theorem steps_endRequestIfStarted {w : World} {i : Nat} {ctx : SessionContext} (socket : Socket)
    (hi : (w.request i).item = some ⟨ctx.sessionId, none⟩) :
    Steps w (endSessionIfStarted (w.setRequest i (.settling socket)) ctx) := by
  unfold endSessionIfStarted
  split
  · exact steps_endRequest socket hi
  · exact steps_dropRequest w i rfl

/-- A session is taken from its socket and ended by the request. -/
theorem steps_endCurrent {w : World} {s : Socket} {ctx : SessionContext}
    (hs : w.currentSessions s = some ctx) :
    Steps w ((w.setCurrent s none).emit (.finished ctx.sessionId)) := by
  unfold Steps
  rw [custody_emit, custody_setCurrent]
  exact .single (.finish (custody w) (.socket s) ctx.item (by simp [custody, held, hs]))

theorem steps_endCurrentIfStarted {w : World} {s : Socket} {ctx : SessionContext}
    (hs : w.currentSessions s = some ctx) (i : Nat) (socket : Socket) :
    Steps w (endSessionIfStarted ((w.setCurrent s none).setRequest i (.settling socket)) ctx) := by
  unfold endSessionIfStarted
  split
  · exact (steps_endCurrent hs).trans (steps_dropRequest _ i rfl)
  · exact (steps_dropCurrent w s).trans (steps_dropRequest _ i rfl)

/-- A session is taken from its socket by a request that processes it. -/
theorem steps_takeCurrent {w : World} {s : Socket} {ctx : SessionContext}
    (hs : w.currentSessions s = some ctx) (i : Nat) (socket : Socket) (rpc : SoapMessage) :
    Steps w (startProcessing (w.setCurrent s none) i socket ctx rpc) := by
  have hmove : Steps w ((w.setCurrent s none).setRequest i (.processing socket ctx rpc)) := by
    unfold Steps
    rw [custody_setRequest, custody_setCurrent]
    exact .single (.move (custody w) (.party (.socket s)) (.request i) ctx.item
      ⟨ctx.sessionId, none⟩ (by simp [custody, held, hs]) rfl (fun τ hτ => by cases hτ)
      (fun h => by cases h))
  refine hmove.trans (steps_work (i := i) ?_)
  simp [World.setRequest, Request.item]

/-- A session goes from the request back to the socket. -/
theorem steps_giveBack {w : World} {i : Nat} {ctx : SessionContext} {r : Request}
    (hi : (w.request i).item = some ⟨ctx.sessionId, none⟩) (hr : r.item = none) (s : Socket)
    (hstamp : ctx.authState = 2 → ∀ q t, (w.connection q).timer = some t →
      t.id = ctx.sessionId → t.stamp ≠ ctx.lastActivity) :
    Steps w ((w.setRequest i r).setCurrent s (some ctx)) := by
  unfold Steps
  rw [custody_setCurrent, custody_setRequest, hr]
  refine .single (.move (custody w) (.party (.request i)) (.socket s) ⟨ctx.sessionId, none⟩
    ctx.item hi rfl (fun τ hτ => ⟨⟨_, rfl⟩, Or.inr fun q t ht hid => ?_⟩) (fun h => by cases h))
  by_cases hauth : ctx.authState = 2
  · simp only [SessionContext.item, hauth, if_true, Option.some.injEq] at hτ
    rw [← hτ]
    exact hstamp hauth q t ht hid
  · simp [SessionContext.item, hauth] at hτ

/-! ## Orderly runs -/

/-- The timer of the `onConnection` read the entry of the session from the cache
and found its own `lastActivity` there. -/
def Connection.Found (sessionId : SessionId) : Connection → Prop
  | .comparing ctx found =>
      ctx.sessionId = sessionId ∧ found.lastActivity = ctx.lastActivity
  | .ended ctx => ctx.sessionId = sessionId
  | _ => False

/-- The `onConnection` stored the session with this `lastActivity`. -/
def Connection.Stamped (sessionId : SessionId) (lastActivity : Option Nat) : Connection → Prop
  | .sleeping ctx _ | .comparing ctx _ | .ended ctx =>
      ctx.sessionId = sessionId ∧ ctx.lastActivity = lastActivity
  | _ => False

/-- No request takes an entry out of the cache that a timer has found before,
and no response is written in the millisecond of the last activity of an
earlier connection of the session. -/
def Orderly (w : World) : Action → Prop
  | .pop i => ∀ socket sessionId body wake, w.request i = .waiting socket sessionId body wake →
      w.cache sessionId ≠ none → ∀ s, ¬ (w.connection s).Found sessionId
  | .finish i env => ∀ socket ctx rpc, w.request i = .processing socket ctx rpc →
      (processRequest ctx rpc env).2 = .respond →
      ∀ s, ¬ (w.connection s).Stamped ctx.sessionId (some w.now)
  | _ => True

/-- One action of a run whose actions all meet `P`. -/
def Next (P : World → Action → Prop) (w w' : World) : Prop := ∃ a, P w a ∧ step w a = some w'

theorem claims_found {w : World} {s : Socket} {t : Timer}
    (h : Custody.Claims (custody w) s t) : (w.connection s).Found t.id := by
  obtain ⟨ht, hphase⟩ := h
  simp only [custody] at ht
  cases hc : w.connection s with
  | comparing ctx found =>
      simp only [hc, Connection.timer] at ht
      split at ht
      · rename_i heq
        cases ht
        exact ⟨rfl, heq⟩
      · cases ht
  | ended ctx =>
      simp only [hc, Connection.timer] at ht
      cases ht
      rfl
  | sleeping ctx wake =>
      simp only [hc, Connection.timer] at ht
      cases ht
      exact absurd rfl hphase
  | _ => simp [hc, Connection.timer] at ht

theorem timer_stamped {c : Connection} {t : Timer} (h : c.timer = some t) :
    c.Stamped t.id t.stamp := by
  cases c with
  | comparing ctx found =>
      simp only [Connection.timer] at h
      split at h
      · cases h
        exact ⟨rfl, rfl⟩
      · cases h
  | ended ctx => cases h; exact ⟨rfl, rfl⟩
  | sleeping ctx wake => cases h; exact ⟨rfl, rfl⟩
  | _ => simp [Connection.timer] at h

/-! ## Every orderly action is a sequence of custody steps -/

theorem processRequest_sessionId (ctx : SessionContext) (rpc : SoapMessage) (env : Env) :
    (processRequest ctx rpc env).1.sessionId = ctx.sessionId := by
  have hdispatch : ∀ ctx, (dispatch ctx rpc env).1.sessionId = ctx.sessionId := by
    intro ctx
    cases rpc <;> simp only [dispatch] <;> split <;> rfl
  unfold processRequest
  simp only
  repeat' split
  all_goals first | rfl | exact hdispatch _

/-- A 401 that keeps the session leaves it unauthenticated. -/
theorem processRequest_unauthorized {ctx : SessionContext} {rpc : SoapMessage} {env : Env}
    (h : (processRequest ctx rpc env).2 = .unauthorized) :
    (processRequest ctx rpc env).1.authState = 1 := by
  have hnext : nextRpc env ≠ .unauthorized := by
    unfold nextRpc
    repeat' split
    all_goals exact fun h => by cases h
  have hdispatch : ∀ ctx, (dispatch ctx rpc env).2 ≠ .unauthorized := by
    intro ctx
    cases rpc <;> simp only [dispatch] <;> repeat' split
    all_goals first | exact hnext | exact fun h => by cases h
  revert h
  unfold processRequest
  simp only
  repeat' split
  all_goals first | exact fun _ => rfl | exact fun h => by cases h | exact fun h => absurd h (hdispatch _)

theorem steps_take {w : World} {i : Nat} {socket : Socket} {cookie : Option SessionId}
    {body : Body} {overloaded : Bool} :
    Steps w (take w i socket cookie body overloaded) := by
  unfold take
  cases hs : w.currentSessions socket with
  | none =>
      simp only
      split <;> refine steps_dropRequest w i ?_
      all_goals first | rfl | (split <;> rfl)
  | some ctx =>
      simp only
      split
      · exact steps_endCurrentIfStarted hs i socket
      · split
        · exact steps_takeCurrent hs i socket _
        · exact steps_endCurrentIfStarted hs i socket
        · exact steps_endCurrentIfStarted hs i socket

theorem steps_pop {w : World} {i : Nat} {socket : Socket} {sessionId : SessionId} {body : Body}
    (hfound : w.cache sessionId ≠ none → ∀ s, ¬ (w.connection s).Found sessionId)
    (hplace : ∀ entry, w.cache sessionId = some entry → entry.value.sessionId = sessionId) :
    Steps w (pop w i socket sessionId body) := by
  unfold pop
  cases hc : w.cache sessionId with
  | none => exact steps_dropRequest w i rfl
  | some entry =>
      simp only
      unfold Steps
      rw [custody_setRequest, custody_setCache]
      refine .single (.move (custody w) (.store sessionId) (.request i) entry.item
        ⟨entry.value.sessionId, none⟩ (by simp [custody, held, hc]) rfl (fun τ hτ => by cases hτ)
        fun _ s t ht hid => ?_)
      have hf := claims_found ht
      rw [hid] at hf
      exact hfound (by rw [hc]; exact Option.some_ne_none _) s (hplace entry hc ▸ hf)

theorem steps_resume {w : World} {i : Nat} {socket : Socket} {ctx : SessionContext} {body : Body}
    (hi : w.request i = .resuming socket ctx body) : Steps w (resume w i socket ctx body) := by
  unfold resume
  split
  · rename_i rpc
    have hid : (if ctx.authState ≠ 1 then { ctx with authState := 0 } else ctx).sessionId =
        ctx.sessionId := by split <;> rfl
    refine (steps_sameRequest (r := .processing socket _ rpc) ?_).trans (steps_work (i := i) ?_)
    · rw [hi]
      simp only [Request.item, hid]
    · simp [World.setRequest, Request.item]
  all_goals exact steps_endRequestIfStarted socket (by rw [hi]; rfl)

theorem steps_start {w : World} {i : Nat} (socket : Socket) (rpcTimeout : Nat)
    {sessionId : SessionId} (hfresh : sessionId ∉ w.used) :
    Steps w (start w i socket rpcTimeout sessionId) := by
  have hcreate : Steps w (({ w with used := sessionId :: w.used } : World).setRequest i
      (.processing socket ⟨sessionId, w.now, rpcTimeout, 0, 0, none, 0⟩ .inform)) := by
    unfold Steps
    rw [custody_setRequest]
    have hused : {x | x ∈ sessionId :: w.used} = insert sessionId (custody w).used := by
      ext x
      simp [custody]
    have := Custody.Step.create (custody w) (.request i) sessionId hfresh
    rw [← hused] at this
    exact .single this
  refine hcreate.trans (steps_work (i := i) ?_)
  simp [World.setRequest, Request.item]

theorem steps_writeResponse {w : World} {i : Nat} {socket : Socket} {ctx : SessionContext}
    {close : Bool} (hi : (w.request i).item = some ⟨ctx.sessionId, none⟩)
    (hstamp : close = false → ∀ s, ¬ (w.connection s).Stamped ctx.sessionId (some w.now)) :
    Steps w (writeResponse w i socket ctx close) := by
  unfold writeResponse
  split
  · exact steps_endRequest socket hi
  · split
    · exact steps_endRequest socket hi
    · rename_i hclose
      have hnew : ∀ ctx' : SessionContext, ctx'.sessionId = ctx.sessionId →
          ctx'.lastActivity = some w.now → ∀ q t, (w.connection q).timer = some t →
          t.id = ctx'.sessionId → t.stamp ≠ ctx'.lastActivity := by
        intro ctx' hid hla q t ht htid heq
        refine hstamp (Bool.not_eq_true _ ▸ hclose) q ?_
        have := timer_stamped ht
        rwa [heq, htid, hid, hla] at this
      refine steps_giveBack ?_ ?_ socket fun _ => hnew _ ?_ ?_
      · rw [hi]
        split <;> rfl
      all_goals split <;> rfl

theorem steps_finish {w : World} {i : Nat} {socket : Socket} {ctx : SessionContext}
    {rpc : SoapMessage} {env : Env} (hi : w.request i = .processing socket ctx rpc)
    (hstamp : (processRequest ctx rpc env).2 = .respond →
      ∀ s, ¬ (w.connection s).Stamped ctx.sessionId (some w.now)) :
    Steps w (finish w i socket ctx rpc env) := by
  have hid := processRequest_sessionId ctx rpc env
  have hitem : (w.request i).item = some ⟨ctx.sessionId, none⟩ := by rw [hi]; rfl
  have hitem' : ((w.emit (.worked ctx.sessionId)).request i).item =
      some ⟨(processRequest ctx rpc env).1.sessionId, none⟩ := by rw [hid]; exact hitem
  refine (steps_work hitem).trans ?_
  unfold finish
  simp only
  split
  · rename_i hout
    refine steps_writeResponse hitem' fun _ => ?_
    rw [hid]
    exact hstamp hout
  · exact steps_writeResponse hitem' fun h => by cases h
  · exact steps_endRequestIfStarted socket hitem'
  · rename_i hout
    have hauth := processRequest_unauthorized hout
    exact steps_giveBack hitem' rfl socket fun h => by rw [hauth] at h; cases h
  · exact steps_dropRequest _ i rfl
  · exact steps_endRequest socket hitem'
  · exact (steps_dropRequest _ i rfl).trans (steps_dropCurrent _ socket)

theorem steps_closed {w : World} {socket : Socket} {since : Nat}
    (hc : w.connection socket = .opened since) : Steps w (closed w socket) := by
  have htimer : (w.connection socket).timer = none := by rw [hc]; rfl
  unfold closed
  simp only
  split
  · exact (Steps.of_eq rfl).trans (steps_quietConnection _ socket rfl rfl htimer)
  · rename_i ctx hs
    split
    · exact (steps_dropCurrent _ socket).trans (steps_quietConnection _ socket rfl rfl htimer)
    · rename_i hauth
      split
      · exact (steps_endCurrent hs).trans (steps_quietConnection _ socket rfl rfl htimer)
      · have hauth' : ctx.authState = 2 := Decidable.not_not.mp hauth
        unfold Steps
        rw [custody_setConnection_quiet (show Connection.timer (.saving ctx _) = none from rfl)
          (by exact htimer), custody_setCurrent]
        exact .single (.move (custody w) (.party (.socket socket)) (.connection socket) ctx.item
          ⟨ctx.sessionId, some ctx.lastActivity⟩ (by simp [custody, held, hs]) rfl
          (fun τ hτ => ⟨⟨_, rfl⟩, Or.inl (by simp [SessionContext.item, hauth', ← hτ])⟩)
          (fun h => by cases h))

theorem steps_save {w : World} {socket : Socket} {ctx : SessionContext} {remaining : Option Int}
    (hc : w.connection socket = .saving ctx remaining) :
    Steps w (save w socket ctx remaining) := by
  unfold save Steps
  simp only
  rw [custody_setCache, custody_setConnection]
  exact .single (.save (custody w) (.connection socket) socket ctx.sessionId ctx.lastActivity
    (by simp [custody, held, hc, Connection.item]) (by simp [custody, hc, Connection.timer]))

theorem steps_cacheGet {w : World} {socket : Socket} {ctx : SessionContext} {wake : Nat}
    (hc : w.connection socket = .sleeping ctx wake) : Steps w (cacheGet w socket ctx) := by
  have htimer : (custody w).timer socket =
      some ⟨ctx.sessionId, ctx.lastActivity, .waiting⟩ := by
    simp [custody, hc, Connection.timer]
  have hheld : Function.update (custody w).held (.party (.connection socket)) none =
      (custody w).held := by
    rw [Function.update_eq_self_iff]
    simp [custody, held, hc, Connection.item]
  have hlapse : ∀ c : Connection, c.item = none → c.timer = none →
      Steps w (w.setConnection socket c) := by
    intro c hitem hnone
    unfold Steps
    rw [custody_setConnection, hitem, hnone, hheld]
    exact .single (.lapse (custody w) socket _ _ htimer)
  unfold cacheGet
  split
  · exact hlapse _ rfl rfl
  · rename_i entry he
    by_cases hfound : entry.value.lastActivity = ctx.lastActivity
    · unfold Steps
      rw [custody_setConnection, show Connection.item (.comparing ctx entry.value) = none from rfl,
        hheld, show Connection.timer (.comparing ctx entry.value) =
          some ⟨ctx.sessionId, ctx.lastActivity, .claimed⟩ from if_pos hfound]
      exact .single (.claim (custody w) socket _ _ htimer
        ⟨entry.item, by simp [custody, held, he], by rw [CacheEntry.item, hfound]⟩)
    · exact hlapse _ rfl (if_neg hfound)

theorem steps_compare {w : World} {socket : Socket} {ctx found : SessionContext}
    (hc : w.connection socket = .comparing ctx found) : Steps w (compare w socket ctx found) := by
  unfold compare
  split
  · rename_i hfound
    have htimer : (custody w).timer socket =
        some ⟨ctx.sessionId, ctx.lastActivity, .claimed⟩ := by
      simp [custody, hc, Connection.timer, hfound]
    have hheld : Function.update (custody w).held (.party (.connection socket)) none =
        (custody w).held := by
      rw [Function.update_eq_self_iff]
      simp [custody, held, hc, Connection.item]
    unfold Steps
    rw [custody_emit, custody_setConnection, show Connection.item (.ended ctx) = none from rfl,
      hheld]
    exact .single (.expire (custody w) socket _ _ htimer)
  · rename_i hfound
    refine steps_quietConnection w socket rfl rfl ?_
    rw [hc]
    exact if_neg hfound

/-- The simulation. -/
theorem custody_step {w w' : World} {a : Action} (hinv : Custody.Inv (custody w))
    (ha : Orderly w a) (h : step w a = some w') : Steps w w' := by
  cases a with
  | tick ms => cases h; exact .of_eq rfl
  | destroy socket => cases h; exact .of_eq rfl
  | connect socket =>
      simp only [step] at h
      split at h
      · rename_i hc
        cases h
        exact steps_quietConnection w socket rfl rfl (by rw [hc]; rfl)
      · cases h
  | arrive i socket cookie body =>
      simp only [step] at h
      split at h
      · split at h
        · cases h
        · cases h
          exact steps_dropRequest w i rfl
      · cases h
  | take i overloaded =>
      simp only [step] at h
      split at h
      · cases h
        exact steps_take
      · cases h
  | pop i =>
      simp only [step] at h
      split at h
      · rename_i socket sessionId body wake hi
        split at h
        · cases h
          refine steps_pop (ha socket sessionId body wake hi) fun entry he => ?_
          exact hinv.place sessionId entry.item (by simp [custody, held, he])
        · cases h
      · cases h
  | resume i =>
      simp only [step] at h
      split at h
      · rename_i hi
        cases h
        exact steps_resume hi
      · cases h
  | start i rpcTimeout sessionId =>
      simp only [step] at h
      split at h
      · split at h
        · cases h
        · rename_i hfresh
          cases h
          exact steps_start _ rpcTimeout hfresh
      · cases h
  | finish i env =>
      simp only [step] at h
      split at h
      · rename_i hi
        cases h
        exact steps_finish hi (ha _ _ _ hi)
      · cases h
  | settle i ok =>
      simp only [step] at h
      split at h
      · cases h
        split
        · exact steps_dropRequest w i rfl
        · exact (steps_dropRequest w i rfl).trans (steps_dropCurrent _ _)
      · cases h
  | closed socket =>
      simp only [step] at h
      split at h
      · rename_i hc
        split at h
        · cases h
          exact steps_closed hc
        · cases h
      · cases h
  | save socket =>
      simp only [step] at h
      split at h
      · rename_i hc
        cases h
        exact steps_save hc
      · cases h
  | wake socket =>
      simp only [step] at h
      split at h
      · rename_i hc
        split at h
        · cases h
          exact steps_cacheGet hc
        · cases h
      · cases h
  | compare socket =>
      simp only [step] at h
      split at h
      · rename_i hc
        cases h
        exact steps_compare hc
      · cases h
  | expire sessionId =>
      simp only [step] at h
      split at h
      · split at h
        · cases h
          exact steps_dropCache w sessionId
        · cases h
      · cases h

/-! ## Main result -/

theorem custody_inv {w : World}
    (h : Reachable (· = World.init) (Next Orderly) w) :
    Custody.Inv (custody w) := by
  refine Reachable.invariant (P := fun w => Custody.Inv (custody w)) ?_ ?_ h
  · rintro w rfl
    refine Custody.Inv.init (fun l => ?_) (fun _ => rfl) rfl
    rcases l with (s | i | s) | sessionId <;> rfl
  · rintro w w' hinv ⟨a, ha, hstep⟩
    exact hinv.steps (custody_step hinv ha hstep)

/-- In every run of orderly actions `endSession` is started at most once for a
session, and no request is processed on the session afterwards. -/
theorem endSession_once {w : World}
    (h : Reachable (· = World.init) (Next Orderly) w)
    (sessionId : SessionId) :
    w.log.count (.finished sessionId) ≤ 1 ∧
      ∀ later earlier, w.log = later ++ .finished sessionId :: earlier →
        .worked sessionId ∉ later := by
  have hsafe : Custody.Safe w.log := (custody_inv h).safe
  exact ⟨hsafe.count_le_one sessionId, fun later earlier hlog hmem =>
    hsafe.not_mem_of_append hlog _ hmem rfl⟩

/-! ## A session that times out -/

/-- A run of actions. -/
def run (w : World) : List Action → Option World
  | [] => some w
  | a :: as => (step w a).bind fun w => run w as

theorem reachable_run {P : World → Action → Prop} {as : List Action} {w w' : World}
    (hw : Reachable (· = World.init) (Next P) w)
    (hP : ∀ w, ∀ a ∈ as, P w a) (h : run w as = some w') :
    Reachable (· = World.init) (Next P) w' := by
  induction as generalizing w with
  | nil => cases h; exact hw
  | cons a as ih =>
      obtain ⟨v, hv, hrest⟩ := Option.bind_eq_some_iff.mp h
      exact ih (hw.step ⟨a, hP w a (List.mem_cons_self ..), hv⟩)
        (fun w b hb => hP w b (List.mem_cons_of_mem _ hb)) hrest

/-- Valid credentials, a free lock, and nothing to ask of the CPE. -/
def idleEnv : Env :=
  { throws := false
    authenticated := true
    lockToken := true
    sessionTimeout := 30
    acsRequest := false }

/-- An Inform opens session 5 with a timeout of 30 s. -/
def opening : List Action :=
  [.connect 0, .arrive 0 0 none (.rpc .inform), .take 0 false, .start 0 30 5]

/-- The socket is closed and the timer goes off. -/
def timingOut : List Action :=
  [.destroy 0, .closed 0, .save 0, .tick 31000, .wake 0, .compare 0]

/-- The device's next request, on a new connection with the session's cookie. -/
def late : List Action :=
  [.connect 1, .arrive 1 1 (some 5) (.rpc .empty), .take 1 false, .tick 100, .pop 1, .resume 1,
    .finish 1 idleEnv]

/-- The late request takes the entry the timer left in the cache: the session is
processed and ended a second time. -/
theorem late_request_ends_again :
    ∃ w, Reachable (· = World.init) (Next fun _ _ => True) w ∧
      w.log = [.finished 5, .worked 5, .worked 5, .finished 5, .worked 5, .worked 5] := by
  have hlog : ((run World.init (opening ++ .finish 0 idleEnv :: timingOut ++ late)).map
      World.log) = some [.finished 5, .worked 5, .worked 5, .finished 5, .worked 5, .worked 5] := by
    decide +kernel
  obtain ⟨w, hw, hlog⟩ := Option.map_eq_some_iff.mp hlog
  exact ⟨w, reachable_run (.init rfl) (fun _ _ _ => trivial) hw, hlog⟩

theorem endSession_once_timeout :
    ∃ w : World, w.log = [.finished 5, .worked 5, .worked 5] ∧
      w.log.count (.finished 5) ≤ 1 ∧
      ∀ later earlier, w.log = later ++ .finished 5 :: earlier → .worked 5 ∉ later := by
  have hopen : ∃ w, run World.init opening = some w ∧ 
      (∀ s id la, ¬ (w.connection s).Stamped id la) ∧
      ((run w (.finish 0 idleEnv :: timingOut)).map World.log) =
        some [.finished 5, .worked 5, .worked 5] := by
    refine ⟨_, rfl, fun s id la => ?_, by decide +kernel⟩
    by_cases hs : s = 0
    · subst hs
      exact fun h => h
    · show ¬ (Connection.Stamped id la (Function.update (fun _ => Connection.idle) 0 _ s))
      rw [Function.update_of_ne hs]
      exact fun h => h
  obtain ⟨w, hw, hfree, hlog⟩ := hopen
  have h1 := reachable_run (P := Orderly) (.init rfl) (by
    intro w a ha
    simp only [opening, List.mem_cons, List.not_mem_nil, or_false] at ha
    rcases ha with rfl | rfl | rfl | rfl <;> trivial) hw
  obtain ⟨w', hw', hlog⟩ := Option.map_eq_some_iff.mp hlog
  obtain ⟨v, hv, hrest⟩ := Option.bind_eq_some_iff.mp hw'
  have h2 := h1.step ⟨.finish 0 idleEnv, fun _ _ _ _ _ s => hfree s _ _, hv⟩
  have h3 := reachable_run h2 (by
    intro w a ha
    simp only [timingOut, List.mem_cons, List.not_mem_nil, or_false] at ha
    rcases ha with rfl | rfl | rfl | rfl | rfl | rfl <;> trivial) hrest
  exact ⟨w', hlog, endSession_once h3 5⟩

end Cwmp

end GenieAcs
