import GenieAcs.SessionRequests

/-!
# Request ids

The counters that a request is sent at never come again in a session, so that no
other request has its id, as long as both counters fit into their two digits.
`rpcRequest` sees to that with its limits. What follows an answer passes by them:
with the last number of a cycle used up, the id of the next request is that of
the first one of the cycle.
-/

namespace GenieAcs

namespace Rpc

variable {D W P A B K : Type} [DecidableEq K] {H : Handlers D A B} {t : Trace D W P A}

/-! ## The counters of what was sent -/

/-- The order of the counters, the cycle first. -/
def Before (e : Sent A) (cycle rpcCount : Nat) : Prop :=
  e.cycle < cycle ∨ e.cycle = cycle ∧ e.rpcCount < rpcCount

/-- What the sent requests have to do with the session: each was sent before the
present counters, or it is the outstanding one. -/
structure Numbered (t : Trace D W P A) : Prop where
  ids : ∀ e ∈ t.sent, e.id = rpcId t.session.timestamp e.cycle e.rpcCount
  bytes : ∀ e ∈ t.sent, e.cycle < 255 ∧ e.rpcCount ≤ 255
  order : ∀ e ∈ t.sent, Before e t.session.cycle t.session.rpcCount
    ∨ (e.cycle = t.session.cycle ∧ e.rpcCount = t.session.rpcCount
      ∧ t.session.rpcRequest = some e.rpc ∧ e.made = t.session.made)
  once : ∀ e ∈ t.sent, ∀ e' ∈ t.sent, e.cycle = e'.cycle → e.rpcCount = e'.rpcCount → e = e'
  outstanding : t.session.rpcRequest ≠ none → t.session.cycle < 255 ∧ t.session.rpcCount ≤ 255

/-- The session moves on with nothing sent, and all that was sent lies behind. -/
theorem Numbered.leave (h : Numbered t) {s : RpcContext D W P A}
    (htime : s.timestamp = t.session.timestamp)
    (hbehind : ∀ e ∈ t.sent, Before e s.cycle s.rpcCount)
    (hout : s.rpcRequest ≠ none → s.cycle < 255 ∧ s.rpcCount ≤ 255) :
    Numbered ⟨s, t.sent⟩ where
  ids e he := by rw [htime]; exact h.ids e he
  bytes := h.bytes
  order e he := Or.inl (hbehind e he)
  once := h.once
  outstanding := hout

/-- With no request outstanding all that was sent lies behind. -/
theorem Numbered.behind (h : Numbered t) (hnone : t.session.rpcRequest = none) :
    ∀ e ∈ t.sent, Before e t.session.cycle t.session.rpcCount := by
  intro e he
  rcases h.order e he with hbefore | ⟨-, -, hout, -⟩
  · exact hbefore
  · rw [hnone] at hout
    cases hout

/-- Another answer puts all that was sent behind. -/
theorem Numbered.counted (h : Numbered t) :
    ∀ e ∈ t.sent, Before e t.session.cycle (t.session.rpcCount + 1) := by
  intro e he
  rcases h.order e he with (hlt | ⟨heq, hlt⟩) | ⟨heq, hcount, -⟩
  · exact Or.inl hlt
  · exact Or.inr ⟨heq, by omega⟩
  · exact Or.inr ⟨heq, by omega⟩

/-- A request is sent at the present counters. -/
theorem Numbered.sends (h : Numbered t) {s : RpcContext D W P A} {rpc : AcsRequest A}
    (htime : s.timestamp = t.session.timestamp) (hcycle : s.cycle = t.session.cycle)
    (hcount : s.rpcCount = t.session.rpcCount) (hreq : s.rpcRequest = some rpc)
    (hbytes : s.cycle < 255 ∧ s.rpcCount ≤ 255)
    (hsame : ∀ e ∈ t.sent, e.cycle = t.session.cycle → e.rpcCount = t.session.rpcCount →
      e.rpc = rpc ∧ e.made = s.made)  :
    Numbered ⟨s, ⟨generateRpcId t.session, rpc, s.made, t.session.cycle, t.session.rpcCount⟩
      :: t.sent⟩ := by
  have hid : generateRpcId t.session = rpcId s.timestamp t.session.cycle t.session.rpcCount := by
    rw [htime]
  -- an entry at the present counters repeats the request
  have hrepeat : ∀ e ∈ t.sent, e.cycle = t.session.cycle → e.rpcCount = t.session.rpcCount →
      e = ⟨generateRpcId t.session, rpc, s.made, t.session.cycle, t.session.rpcCount⟩ := by
    intro e he hc hn
    obtain ⟨hrpc, hmade⟩ := hsame e he hc hn
    have hide := h.ids e he
    obtain ⟨id, rpc', made, cycle, rpcCount⟩ := e
    simp only at hc hn hrpc hmade hide
    subst hc hn hrpc hmade hide
    rfl
  refine ⟨fun e he => ?_, fun e he => ?_, fun e he => ?_, fun e he e' he' hc hn => ?_,
    fun _ => hbytes⟩
  · rcases List.mem_cons.mp he with rfl | he
    · exact hid
    · rw [htime]
      exact h.ids e he
  · rcases List.mem_cons.mp he with rfl | he
    · exact ⟨hcycle ▸ hbytes.1, hcount ▸ hbytes.2⟩
    · exact h.bytes e he
  · rcases List.mem_cons.mp he with rfl | he
    · exact Or.inr ⟨hcycle.symm, hcount.symm, hreq, rfl⟩
    · show Before e s.cycle s.rpcCount ∨ _
      rw [hcycle, hcount]
      rcases h.order e he with hbefore | ⟨hc, hn, -⟩
      · exact Or.inl hbefore
      · obtain ⟨hrpc, hmade⟩ := hsame e he hc hn
        exact Or.inr ⟨hc, hn, hrpc ▸ hreq, hmade⟩
  · rcases List.mem_cons.mp he with rfl | he
    · rcases List.mem_cons.mp he' with rfl | he'
      · rfl
      · exact (hrepeat e' he' hc.symm hn.symm).symm
    · rcases List.mem_cons.mp he' with rfl | he'
      · exact hrepeat e he hc hn
      · exact h.once e he e' he' hc hn

/-! ## The invariant -/

/-- Provisions are added or cleared. -/
theorem Numbered.restarts (h : Numbered t) {s : RpcContext D W P A} {m : ℚ}
    (hs : Restarts m t.session s)
    (hmeets : t.session.rpcRequest ≠ none → t.session.iteration ≠ t.session.cycle * m) :
    Numbered ⟨s, t.sent⟩ := by
  obtain ⟨htime, hreq, hcounters⟩ := hs
  refine h.leave htime (fun e he => ?_) fun hout => absurd hreq hout
  rcases hcounters with hcycle | ⟨hiter, hcycle, hcount⟩
  · left
    rw [hcycle]
    rcases h.order e he with (hlt | ⟨heq, -⟩) | ⟨heq, -⟩ <;> omega
  · have hnone : t.session.rpcRequest = none := by
      by_contra hout
      exact hmeets hout hiter
    rw [hcycle, hcount]
    exact h.behind hnone e he

theorem step_numbered (h : Numbered t) {json : P → K} {e : Event D W P A B}
    (he : Meets H t.session e) : Numbered (step H json t e) := by
  have hreceive : ∀ r : RpcContext D W P A × Outcome,
      (r.2 ≠ .typeError → Numbered ⟨r.1, t.sent⟩) → Numbered (receive t r) := by
    intro r hr
    unfold receive
    split_ifs with herror
    · exact h
    · exact hr herror
  cases e with
  | request answers declarations =>
      show Numbered (send t (rpcRequest t.session answers declarations))
      have hpasses := rpcRequest_passes t.session answers declarations
      generalize rpcRequest t.session answers declarations = r at hpasses
      cases hpasses with
      | @repeats rpc hreq =>
          refine h.sends rfl rfl rfl hreq (h.outstanding (by simp [hreq])) fun e he hc hn => ?_
          rcases h.order e he with (hlt | ⟨-, hlt⟩) | ⟨-, -, hout, hmade⟩
          · omega
          · omega
          · exact ⟨Option.some.inj (hout.symm.trans hreq), hmade⟩
      | @makes s' rpc hnone hsame hcount hcycle hreq =>
          obtain ⟨htime, hcycle', hcount'⟩ := hsame
          have hbytes : s'.cycle < 255 ∧ s'.rpcCount ≤ 255 := by omega
          refine h.sends htime hcycle' hcount' hreq hbytes fun e he hc hn => ?_
          rcases h.behind hnone e he with hlt | ⟨-, hlt⟩ <;> omega
      | @goesOn s' reply hnone hsame hreq hreply =>
          obtain ⟨htime, hcycle, hcount⟩ := hsame
          have hquiet : send t (s', reply) = ⟨s', t.sent⟩ := by
            cases reply with
            | request id rpc => exact absurd rfl (hreply id rpc)
            | fault code => rfl
            | nothing => rfl
            | again declarations => rfl
          rw [hquiet]
          refine h.leave htime (fun e he => ?_) fun hout => absurd hreq hout
          rw [hcycle, hcount]
          exact h.behind hnone e he
  | response id rpcRes datetimeMilliseconds booleanLiteral =>
      refine hreceive _ fun hnoerror => ?_
      by_cases hid : id = generateRpcId t.session
      · obtain ⟨htime, hcycle, hcount, rpcReq, hreq, hnext⟩ := rpcResponse_spec hid hnoerror
        refine h.leave htime (fun e he => ?_) fun hout => ?_
        · rw [hcycle, hcount]
          exact h.counted e he
        · obtain ⟨next, hsome⟩ := Option.ne_none_iff_exists'.mp hout
          have hlt := he hid rpcReq hreq next (hsome ▸ hnext)
          have hbytes := h.outstanding (by simp [hreq])
          omega
      · have hsame : (rpcResponse H t.session id rpcRes datetimeMilliseconds booleanLiteral).1
            = t.session := by
          rw [rpcResponse, if_pos hid]
        rw [hsame]
        exact h
  | fault id faultResponse =>
      refine hreceive _ fun _ => ?_
      obtain ⟨htime, hcycle, hcount, hreq⟩ := @rpcFault_spec D W P A B H t.session id faultResponse
      refine h.leave htime (fun e he => ?_) fun hout => absurd hreq hout
      rw [hcycle, hcount]
      exact h.counted e he
  | addProvisions m channel provisions =>
      exact h.restarts (addProvisions_restarts json m t.session channel provisions) he
  | clearProvisions m => exact h.restarts (clearProvisions_restarts m t.session) he

theorem run_numbered {json : P → K} (h : Run (B := B) H json t) : Numbered t := by
  refine h.invariant (fun t ht => ?_) fun t t' ht hstep => ?_
  · obtain ⟨hsent, hreq, -⟩ := ht
    have hnone : ∀ e, e ∉ t.sent := by simp [hsent]
    exact ⟨fun e he => absurd he (hnone e), fun e he => absurd he (hnone e),
      fun e he => absurd he (hnone e), fun e he => absurd he (hnone e),
      fun hout => absurd hreq hout⟩
  · obtain ⟨e, he, rfl⟩ := hstep
    exact step_numbered ht he

/-! ## Ids -/

theorem hexText_small {n : Nat} (hn : n < 16) : hexText n = [hexDigit n] := by
  unfold hexText
  split_ifs with h
  · subst h
    rfl
  · rw [Nat.digits_of_lt 16 n h hn]
    rfl

theorem hexText_large {n : Nat} (hn : 16 ≤ n) :
    hexText n = hexText (n / 16) ++ [hexDigit (n % 16)] := by
  have hdiv : n / 16 ≠ 0 := by omega
  unfold hexText
  rw [if_neg (by omega), if_neg hdiv, Nat.digits_def' (by omega) (by omega), List.map_cons,
    List.reverse_cons]

/-- The two digits are the last ones. -/
theorem hexByte_eq (n : Nat) : hexByte n = [hexDigit (n / 16 % 16), hexDigit (n % 16)] := by
  have hlast : ∀ (l : JsString) (x y : Nat),
      (l ++ [x, y]).drop ((l ++ [x, y]).length - 2) = [x, y] := by
    intro l x y
    rw [List.length_append, List.length_cons, List.length_singleton, Nat.add_sub_cancel,
      List.drop_left]
  rw [hexByte]
  by_cases hsmall : n < 16
  · have hzero : n / 16 % 16 = 0 := by omega
    rw [hexText_small hsmall, Nat.mod_eq_of_lt hsmall, hzero]
    exact hlast [] _ _
  · rw [hexText_large (by omega)]
    by_cases hbyte : n / 16 < 16
    · rw [hexText_small hbyte, Nat.mod_eq_of_lt hbyte]
      exact hlast (js "0") _ _
    · rw [hexText_large (by omega), List.append_assoc, ← List.append_assoc]
      exact hlast (js "0" ++ hexText (n / 16 / 16)) _ _

theorem hexDigit_injective {m n : Nat} (hm : m < 16) (hn : n < 16) (h : hexDigit m = hexDigit n) :
    m = n := by
  rw [← hexValue_hexDigit hm, h, hexValue_hexDigit hn]

theorem hexByte_injective {m n : Nat} (hm : m < 256) (hn : n < 256) (h : hexByte m = hexByte n) :
    m = n := by
  rw [hexByte_eq, hexByte_eq] at h
  obtain ⟨h1, h2⟩ := List.cons.inj h
  have hhigh := hexDigit_injective (by omega) (by omega) h1
  have hlow := hexDigit_injective (by omega) (by omega) (List.cons.inj h2).1
  omega

theorem rpcId_injective {timestamp cycle cycle' rpcCount rpcCount' : Nat} (hc : cycle < 256)
    (hc' : cycle' < 256) (hn : rpcCount < 256) (hn' : rpcCount' < 256)
    (h : rpcId timestamp cycle rpcCount = rpcId timestamp cycle' rpcCount') :
    cycle = cycle' ∧ rpcCount = rpcCount' := by
  unfold rpcId at h
  rw [List.append_assoc, List.append_assoc] at h
  have hbytes := List.append_cancel_left h
  have hlen : (hexByte cycle).length = (hexByte cycle').length := by
    rw [hexByte_eq, hexByte_eq]
    rfl
  obtain ⟨hcycle, hcount⟩ := List.append_inj hbytes hlen
  exact ⟨hexByte_injective hc hc' hcycle, hexByte_injective hn hn' hcount⟩


/-- The data of the device, the outstanding request and the counters are the same. -/
structure Unchanged (s s' : RpcContext D W P A) : Prop where
  deviceData : s'.deviceData = s.deviceData
  rpcRequest : s'.rpcRequest = s.rpcRequest
  cycle : s'.cycle = s.cycle
  rpcCount : s'.rpcCount = s.rpcCount
  iteration : s'.iteration = s.iteration
  revisions : s'.revisions = s.revisions

/-! ## Identified requests -/

/-- In every run whose events meet their conditions no two requests have one id.
A response with another id than that of the outstanding request is ignored, a
fault never is. -/
theorem requests_identified (H : Handlers D A B) (json : P → K) (t : Trace D W P A)
    (h : Run H json t) :
    (∀ e ∈ t.sent, ∀ e' ∈ t.sent, e.id = e'.id → e = e')
    ∧ ∀ id, id ≠ generateRpcId t.session →
      (∀ rpcRes datetimeMilliseconds booleanLiteral, Unchanged t.session
        (rpcResponse H t.session id rpcRes datetimeMilliseconds booleanLiteral).1)
      ∧ ∀ faultResponse, ¬ Unchanged t.session (rpcFault H t.session id faultResponse).1 := by
  have hnum := run_numbered h
  refine ⟨fun e he e' he' hid => ?_, fun id hid => ⟨fun rpcRes _ _ => ?_, fun fault hsame => ?_⟩⟩
  · rw [hnum.ids e he, hnum.ids e' he'] at hid
    have hbytes := hnum.bytes e he
    have hbytes' := hnum.bytes e' he'
    obtain ⟨hcycle, hcount⟩ :=
      rpcId_injective (by omega) (by omega) (by omega) (by omega) hid
    exact hnum.once e he e' he' hcycle hcount
  · rw [rpcResponse, if_pos hid]
    exact ⟨rfl, rfl, rfl, rfl, rfl, rfl⟩
  · obtain ⟨-, -, hcount, -⟩ := @rpcFault_spec D W P A B H t.session id fault
    have hcount' := hsame.rpcCount
    omega


/-- Handlers that leave the data of the device alone. -/
def idle : Handlers Unit Unit Unit where
  sanitizeParameterValue v := (v.1.map .str, v.2)
  store _ _ _ _ d := (d, none)
  recover _ _ _ d := some d
  collapse d := d

def newSession : Trace Unit Unit Unit Unit where
  session := { timestamp := 1000, deviceData := (), provisioning := { provisions := [()] } }
  sent := []

def answering (generated : Generated Unit Unit) : Answers Unit Unit Unit where
  deviceData := ()
  run := .done [] true
  MAX_ITERATIONS := 64
  virtualParameterDeclarations := ()
  generated

def answered (parameterList : List (JsString × Option Value × JsString)) : CpeResponse Unit where
  instanceNumber := some (js "1")
  parameterList := some parameterList
  body := ()

def getting : AcsRequest Unit := .getParameterValues [js "a"] none

def adding : AcsRequest Unit := .addObject (js "b.") (InsMap.empty.set (js "c") (js "d"))

/-- The session after `n` answers, with a request outstanding. -/
def busy (n : Nat) : RpcContext Unit Unit Unit Unit where
  timestamp := 1000
  deviceData := ()
  provisioning := { provisions := [()] }
  declarations := [[]]
  provisionsRet := [true]
  syncState := some [()]
  rpcRequest := some getting
  rpcCount := n
  iteration := 2
  made := n + 1

/-- A run without conditions on its events. -/
def FreeRun (H : Handlers D A B) (json : P → K) : Trace D W P A → Prop :=
  Reachable Begins fun t t' => ∃ e : Event D W P A B, t' = step H json t e

theorem freeRun_foldl {json : P → K} (events : List (Event D W P A B)) {t : Trace D W P A}
    (h : FreeRun H json t) : FreeRun H json (events.foldl (step H json) t) := by
  induction events generalizing t with
  | nil => exact h
  | cons e events ih => exact ih (.step h ⟨e, rfl⟩)

/-- What was sent before stays at the end. -/
theorem foldl_sent (json : P → K) (events : List (Event D W P A B)) (t : Trace D W P A) :
    (events.foldl (step H json) t).sent
      = (events.foldl (step H json) ⟨t.session, []⟩).sent ++ t.sent := by
  have hstep : ∀ (t : Trace D W P A) (e : Event D W P A B),
      (step H json t e).session = (step H json ⟨t.session, []⟩ e).session
        ∧ (step H json t e).sent = (step H json ⟨t.session, []⟩ e).sent ++ t.sent := by
    intro t e
    cases e with
    | request answers declarations =>
        show (send t _).session = (send ⟨t.session, []⟩ _).session
          ∧ (send t _).sent = (send ⟨t.session, []⟩ _).sent ++ t.sent
        unfold send
        cases (rpcRequest t.session answers declarations).2 <;> exact ⟨rfl, rfl⟩
    | response id rpcRes datetimeMilliseconds booleanLiteral =>
        show (receive t _).session = (receive ⟨t.session, []⟩ _).session
          ∧ (receive t _).sent = (receive ⟨t.session, []⟩ _).sent ++ t.sent
        unfold receive
        split_ifs <;> exact ⟨rfl, rfl⟩
    | fault id faultResponse =>
        show (receive t _).session = (receive ⟨t.session, []⟩ _).session
          ∧ (receive t _).sent = (receive ⟨t.session, []⟩ _).sent ++ t.sent
        unfold receive
        split_ifs <;> exact ⟨rfl, rfl⟩
    | addProvisions m channel provisions => exact ⟨rfl, rfl⟩
    | clearProvisions m => exact ⟨rfl, rfl⟩
  induction events generalizing t with
  | nil => rfl
  | cons e events ih =>
      obtain ⟨hsession, hsent⟩ := hstep t e
      rw [List.foldl_cons, List.foldl_cons, ih, ih (step H json ⟨t.session, []⟩ e), hsession, hsent,
        List.append_assoc]

/-- An answer and the request that is made then. -/
theorem busy_next {n : Nat} (hn : n < 254) (sent : List (Sent Unit)) :
    [Event.response (rpcId 1000 0 n) (answered []) false false,
      .request (answering (.get getting)) []].foldl (step idle (id : Unit → Unit)) ⟨busy n, sent⟩
      = ⟨busy (n + 1), ⟨rpcId 1000 0 (n + 1), getting, n + 2, 0, n + 1⟩ :: sent⟩ := by
  have hresponse : rpcResponse idle (busy n) (rpcId 1000 0 n) (answered []) false false
      = ({ busy n with rpcCount := n + 1, rpcRequest := none }, .accepted) := by
    rw [rpcResponse, if_neg (fun h => h rfl)]
    rfl
  have hrequest : rpcRequest { busy n with rpcCount := n + 1, rpcRequest := none }
      (answering (.get getting)) []
      = (busy (n + 1), .request (rpcId 1000 0 (n + 1)) getting) := by
    have hcount : ¬ 255 ≤ n + 1 := by omega
    simp [rpcRequest, busy, hcount, answering, issue]
    norm_num
  have hreceive : step idle (id : Unit → Unit) ⟨busy n, sent⟩
      (.response (rpcId 1000 0 n) (answered []) false false)
      = ⟨{ busy n with rpcCount := n + 1, rpcRequest := none }, sent⟩ := by
    show receive _ (rpcResponse idle (busy n) _ _ _ _) = _
    rw [hresponse]
    rfl
  rw [List.foldl_cons, hreceive, List.foldl_cons]
  show send _ (rpcRequest { busy n with rpcCount := n + 1, rpcRequest := none } _ _) = _
  rw [hrequest]
  rfl

def firstRequests : List (Event Unit Unit Unit Unit Unit) :=
  [.request (answering .nothing) [], .request (answering .nothing) [],
    .request (answering (.get getting)) []]

theorem firstRequests_busy : firstRequests.foldl (step idle (id : Unit → Unit)) newSession
    = ⟨busy 0, [⟨rpcId 1000 0 0, getting, 1, 0, 0⟩]⟩ := by
  simp [firstRequests, step, send, rpcRequest, newSession, answering, issue, busy]
  norm_num
  rfl

/-- The first request of a cycle is still known when there were 253 answers. -/
theorem busy_run (n : Nat) (hn : n ≤ 253) : ∃ sent,
    FreeRun idle (id : Unit → Unit) ⟨busy n, sent⟩
      ∧ ⟨rpcId 1000 0 0, getting, 1, 0, 0⟩ ∈ sent := by
  induction n with
  | zero =>
      refine ⟨[⟨rpcId 1000 0 0, getting, 1, 0, 0⟩], ?_, List.mem_singleton_self _⟩
      have hstart : FreeRun idle (id : Unit → Unit) newSession := .init ⟨rfl, rfl, rfl, rfl, rfl⟩
      have hbusy := freeRun_foldl firstRequests hstart
      rw [firstRequests_busy] at hbusy
      exact hbusy
  | succ n ih =>
      obtain ⟨sent, hrun, hfirst⟩ := ih (by omega)
      have hnext := freeRun_foldl [.response (rpcId 1000 0 n) (answered []) false false,
        .request (answering (.get getting)) []] hrun
      rw [busy_next (by omega)] at hnext
      exact ⟨_, hnext, List.mem_cons_of_mem _ hfirst⟩

/-- An object is added with the last id but one of the cycle, and what follows
it takes two more. -/
def lastAnswers : List (Event Unit Unit Unit Unit Unit) :=
  [.response (rpcId 1000 0 253) (answered []) false false,
    .request (answering (.set adding)) [],
    .response (rpcId 1000 0 254) (answered []) false false, .request (answering .nothing) [],
    .response (rpcId 1000 0 255) (answered [(js "b.1.c", some (.str []), js "xsd:string")]) false
      false, .request (answering .nothing) []]

theorem lastAnswers_sent :
    ((lastAnswers.foldl (step idle (id : Unit → Unit)) ⟨busy 253, []⟩).sent.head?.map
      fun e => (e.id, e.rpcCount)) = some (rpcId 1000 0 0, 256) := by
  decide +kernel

/-- Two requests can have one id, and a fault is not held against its id. -/
theorem requests_confused :
    (¬ ∀ t, FreeRun (W := Unit) idle (id : Unit → Unit) t →
      ∀ e ∈ t.sent, ∀ e' ∈ t.sent, e.id = e'.id → e = e')
    ∧ ¬ ∀ t, FreeRun (W := Unit) idle (id : Unit → Unit) t → ∀ rpcId, rpcId ≠ generateRpcId t.session →
      ∀ faultResponse, Unchanged t.session (rpcFault idle t.session rpcId faultResponse).1 := by
  have hbegins : FreeRun idle (id : Unit → Unit) newSession := .init ⟨rfl, rfl, rfl, rfl, rfl⟩
  constructor
  · intro h
    obtain ⟨sent, hrun, hfirst⟩ := busy_run 253 le_rfl
    obtain ⟨e, hhead, hcounters⟩ := Option.map_eq_some_iff.mp lastAnswers_sent
    have hlast := List.mem_of_mem_head? hhead
    have hsent : ∀ x, x ∈ (lastAnswers.foldl (step idle (id : Unit → Unit)) ⟨busy 253, []⟩).sent
        ∨ x ∈ sent →
        x ∈ (lastAnswers.foldl (step idle (id : Unit → Unit)) ⟨busy 253, sent⟩).sent := by
      intro x hx
      rw [foldl_sent]
      exact List.mem_append.mpr hx
    have hid : e.id = rpcId 1000 0 0 := congrArg Prod.fst hcounters
    have heq := h _ (freeRun_foldl lastAnswers hrun) e (hsent e (Or.inl hlast)) _
      (hsent _ (Or.inr hfirst)) hid
    have hcount : e.rpcCount = 256 := congrArg Prod.snd hcounters
    rw [heq] at hcount
    exact absurd hcount (by decide)
  · intro h
    have hsame := h newSession hbegins [] (by decide) ⟨"8000", "Method not supported"⟩
    exact absurd hsame.rpcCount (by decide)

/-- An object is added and its instance keys are asked for. -/
def addingAnswers : List (Event Unit Unit Unit Unit Unit) :=
  [.request (answering .nothing) [], .request (answering .nothing) [],
    .request (answering (.set adding)) [], .response (rpcId 1000 0 0) (answered []) false false,
    .request (answering .nothing) []]

/-- Two requests with their ids. -/
theorem requests_identified_adding :
    let t := addingAnswers.foldl (step idle (id : Unit → Unit)) newSession
    (∀ e ∈ t.sent, ∀ e' ∈ t.sent, e.id = e'.id → e = e')
    ∧ ∀ rpcId, rpcId ≠ generateRpcId t.session →
      (∀ rpcRes datetimeMilliseconds booleanLiteral, Unchanged t.session
        (rpcResponse idle t.session rpcId rpcRes datetimeMilliseconds booleanLiteral).1)
      ∧ ∀ faultResponse, ¬ Unchanged t.session (rpcFault idle t.session rpcId faultResponse).1 := by
  have hbegins : Run idle (id : Unit → Unit) newSession := .init ⟨rfl, rfl, rfl, rfl, rfl⟩
  have hdeclared := hbegins.step ⟨.request (answering .nothing) [], trivial, rfl⟩
  have hadding := (hdeclared.step ⟨.request (answering .nothing) [], trivial, rfl⟩).step
    ⟨.request (answering (.set adding)) [], trivial, rfl⟩
  have hanswered := hadding.step
    ⟨.response (rpcId 1000 0 0) (answered []) false false, fun _ _ _ _ _ => by decide +kernel, rfl⟩
  exact requests_identified idle id _ (hanswered.step ⟨.request (answering .nothing) [], trivial, rfl⟩)

end Rpc

end GenieAcs
