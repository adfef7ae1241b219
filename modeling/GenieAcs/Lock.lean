import Mathlib.Data.Rat.Defs
import Mathlib.Logic.Function.Basic
import GenieAcs.Lib.Transition

/-!
# The database lock

`lib/lock.ts` keeps one document for each lock in a collection whose `_id` is
the name of the lock. Any number of clients, each with a token of its own,
call `acquireLock` and `releaseLock`, one call after the other; an operation
of the database is one step, and so is whatever a client does between two
operations. The database has a clock of its own, `now` is what a client reads
off its own clock, which may be anything.

`granted` is no part of the program: it records the expiry of what a client
has acquired and not released. A call carries a flag `held` of the same kind,
whether its token was in the collection when the call began.
-/

namespace GenieAcs

namespace Lock

def CLOCK_SKEW_TOLERANCE : Nat := 30000

structure LockDoc (Token : Type) where
  value : Token
  expire : Int
  timestamp : Int

/-- The arguments of `acquireLock`, but for the token. -/
structure Call (LockName : Type) where
  lockName : LockName
  ttl : Int
  timeout : ℚ
  held : Bool

/-- Where a client stands. -/
inductive Client (LockName : Type)
  | idle
  /-- Before `Date.now()`. -/
  | trying (call : Call LockName)
  /-- `findOneAndUpdate` is under way. -/
  | asked (call : Call LockName) (now : Int)
  /-- The document came back with that timestamp. -/
  | answered (call : Call LockName) (now timestamp : Int)
  /-- In `setTimeout`. -/
  | sleeping (call : Call LockName)

structure State (Token LockName : Type) where
  locks : LockName → Option (LockDoc Token)
  /-- The clock of the database. -/
  time : Int
  clients : Token → Client LockName
  granted : Token → LockName → Option Int

variable {Token LockName : Type} [DecidableEq Token] [DecidableEq LockName]

/-- The token is in the collection. -/
def State.Stored (s : State Token LockName) (token : Token) : Prop :=
  ∃ name doc, s.locks name = some doc ∧ doc.value = token

def State.setClient (s : State Token LockName) (token : Token) (c : Client LockName) :
    State Token LockName :=
  { s with clients := Function.update s.clients token c }

/-- Record what the client is granted of a lock, or that it gives it up. -/
def State.grant (s : State Token LockName) (token : Token) (name : LockName)
    (expire : Option Int) : State Token LockName :=
  { s with granted := fun t n => if t = token ∧ n = name then expire else s.granted t n }

def State.putLock (s : State Token LockName) (name : LockName) (doc : Option (LockDoc Token)) :
    State Token LockName :=
  { s with locks := Function.update s.locks name doc }

/-- The document that the `$set` and `$currentDate` of the upsert leave. -/
def State.upsert (s : State Token LockName) (token : Token) (call : Call LockName) (now : Int) :
    State Token LockName :=
  let expire := now + call.ttl + CLOCK_SKEW_TOLERANCE
  ((s.putLock call.lockName (some ⟨token, expire, s.time⟩)).setClient token
    (.answered call now s.time)).grant token call.lockName (some expire)

/-- What a step does. -/
inductive Event (Token LockName : Type)
  | begin (token : Token)
  | clock (token : Token)
  /-- The upsert updates or inserts. -/
  | upsert (token : Token)
  /-- The upsert fails with code 11000. -/
  | duplicate (token : Token)
  /-- The upsert fails otherwise, and `acquireLock` throws. -/
  | error (token : Token)
  | wake (token : Token)
  | returnToken (token : Token)
  | returnNull (token : Token)
  /-- "Database clock skew too great". -/
  | throwSkew (token : Token)
  | release (token : Token) (name : LockName)
  | expire (name : LockName)
  | tick

inductive Step : State Token LockName → Event Token LockName → State Token LockName → Prop
  | begin {s : State Token LockName} {token : Token} {call : Call LockName}
      (hidle : s.clients token = .idle) (hheld : call.held = true ↔ s.Stored token) :
      Step s (.begin token) (s.setClient token (.trying call))
  | clock {s : State Token LockName} {token : Token} {call : Call LockName} (now : Int)
      (h : s.clients token = .trying call) :
      Step s (.clock token) (s.setClient token (.asked call now))
  | upsert {s : State Token LockName} {token : Token} {call : Call LockName} {now : Int}
      (h : s.clients token = .asked call now)
      (hfree : ∀ doc, s.locks call.lockName = some doc → doc.value = token) :
      Step s (.upsert token) (s.upsert token call now)
  | duplicate {s : State Token LockName} {token : Token} {call : Call LockName} {now : Int}
      {doc : LockDoc Token} (w : ℚ) (h : s.clients token = .asked call now)
      (hdoc : s.locks call.lockName = some doc) (hne : doc.value ≠ token)
      (ht : 0 < call.timeout) (hw : 50 ≤ w ∧ w < 100) :
      Step s (.duplicate token)
        (s.setClient token (.sleeping { call with timeout := call.timeout - w }))
  | returnNull {s : State Token LockName} {token : Token} {call : Call LockName} {now : Int}
      {doc : LockDoc Token} (h : s.clients token = .asked call now)
      (hdoc : s.locks call.lockName = some doc) (hne : doc.value ≠ token)
      (ht : ¬ 0 < call.timeout) :
      Step s (.returnNull token) (s.setClient token .idle)
  | error {s : State Token LockName} {token : Token} {call : Call LockName} {now : Int}
      (h : s.clients token = .asked call now) : Step s (.error token) (s.setClient token .idle)
  | wake {s : State Token LockName} {token : Token} {call : Call LockName}
      (h : s.clients token = .sleeping call) :
      Step s (.wake token) (s.setClient token (.trying call))
  | returnToken {s : State Token LockName} {token : Token} {call : Call LockName}
      {now timestamp : Int} (h : s.clients token = .answered call now timestamp)
      (hskew : (timestamp - now).natAbs ≤ CLOCK_SKEW_TOLERANCE) :
      Step s (.returnToken token) (s.setClient token .idle)
  | throwSkew {s : State Token LockName} {token : Token} {call : Call LockName}
      {now timestamp : Int} (h : s.clients token = .answered call now timestamp)
      (hskew : ¬ (timestamp - now).natAbs ≤ CLOCK_SKEW_TOLERANCE) :
      Step s (.throwSkew token) (s.setClient token .idle)
  | release {s : State Token LockName} {token : Token} {name : LockName} {doc : LockDoc Token}
      (hidle : s.clients token = .idle) (hdoc : s.locks name = some doc)
      (hvalue : doc.value = token) :
      Step s (.release token name) ((s.putLock name none).grant token name none)
  /-- `deletedCount` is 0, and `releaseLock` throws "Lock expired". -/
  | releaseExpired {s : State Token LockName} {token : Token} {name : LockName}
      (hidle : s.clients token = .idle)
      (hno : ∀ doc, s.locks name = some doc → doc.value ≠ token) :
      Step s (.release token name) (s.grant token name none)
  | expire {s : State Token LockName} {name : LockName} {doc : LockDoc Token}
      (hdoc : s.locks name = some doc) (h : doc.expire ≤ s.time) :
      Step s (.expire name) (s.putLock name none)
  | tick {s : State Token LockName} (d : Nat) : Step s .tick { s with time := s.time + d }

/-- An empty collection, and nobody is doing anything. -/
def State.Init (s : State Token LockName) : Prop :=
  (∀ name, s.locks name = none) ∧ (∀ token, s.clients token = .idle)
    ∧ ∀ token name, s.granted token name = none

/-- A step of a kind that `P` admits. -/
def Next (P : State Token LockName → Event Token LockName → Prop)
    (s s' : State Token LockName) : Prop :=
  ∃ e, P s e ∧ Step s e s'

/-- The client was granted the lock, has not released it, and it has not expired. -/
def State.Holds (s : State Token LockName) (token : Token) (name : LockName) : Prop :=
  ∃ expire, s.granted token name = some expire ∧ s.time < expire

/-! ## Exclusion -/

/-- What was granted and has not expired is in the collection. -/
def State.Kept (s : State Token LockName) : Prop :=
  ∀ token name expire, s.granted token name = some expire → s.time < expire →
    ∃ doc, s.locks name = some doc ∧ doc.value = token ∧ doc.expire = expire

section

variable {s s' : State Token LockName} {e : Event Token LockName}

theorem granted_grant {t token : Token} {n name : LockName} {expire : Option Int} :
    (s.grant token name expire).granted t n
      = if t = token ∧ n = name then expire else s.granted t n := rfl

/-- A grant survives that a client gives up another. -/
theorem granted_of_grant_none {t token : Token} {n name : LockName} {expire : Int}
    (h : (s.grant token name none).granted t n = some expire) :
    s.granted t n = some expire ∧ ¬ (t = token ∧ n = name) := by
  rw [granted_grant] at h
  split_ifs at h with hsame
  exact ⟨h, hsame⟩

omit [DecidableEq Token] in
theorem putLock_self (name : LockName) (doc : Option (LockDoc Token)) :
    (s.putLock name doc).locks name = doc := Function.update_self ..

omit [DecidableEq Token] in
theorem putLock_of_ne {n name : LockName} (h : n ≠ name) (doc : Option (LockDoc Token)) :
    (s.putLock name doc).locks n = s.locks n := Function.update_of_ne h ..

theorem kept_step (h : s.Kept) (hstep : Step s e s') : s'.Kept := by
  cases hstep with
  | begin | clock | duplicate | returnNull | error | wake | returnToken | throwSkew => exact h
  | @upsert token call now hasked hfree =>
      intro t n expire hg ht
      change (if t = token ∧ n = call.lockName then _ else s.granted t n) = some expire at hg
      change ∃ doc, (s.putLock call.lockName _).locks n = some doc ∧ _
      split_ifs at hg with hsame
      · obtain ⟨rfl, rfl⟩ := hsame
        exact ⟨_, putLock_self .., rfl, Option.some.inj hg⟩
      · obtain ⟨doc, hdoc, hvalue, hexpire⟩ := h t n expire hg ht
        have hn : n ≠ call.lockName := by
          -- the lock of another client would have failed the upsert
          rintro rfl
          exact hsame ⟨hvalue.symm.trans (hfree doc hdoc), rfl⟩
        exact ⟨doc, (putLock_of_ne hn _).trans hdoc, hvalue, hexpire⟩
  | @release token name doc hidle hdoc hvalue =>
      intro t n expire hg ht
      obtain ⟨hg, hother⟩ := granted_of_grant_none hg
      obtain ⟨doc', hdoc', hvalue', hexpire⟩ := h t n expire hg ht
      have hn : n ≠ name := by
        rintro rfl
        rw [hdoc] at hdoc'
        cases hdoc'
        exact hother ⟨hvalue'.symm.trans hvalue, rfl⟩
      exact ⟨doc', (putLock_of_ne hn _).trans hdoc', hvalue', hexpire⟩
  | releaseExpired => exact fun t n expire hg ht => h t n expire (granted_of_grant_none hg).1 ht
  | @expire name doc hdoc hle =>
      intro t n expire hg ht
      obtain ⟨doc', hdoc', hvalue', hexpire⟩ := h t n expire hg ht
      have hn : n ≠ name := by
        rintro rfl
        rw [hdoc] at hdoc'
        cases hdoc'
        change s.time < expire at ht
        omega
      exact ⟨doc', (putLock_of_ne hn _).trans hdoc', hvalue', hexpire⟩
  | tick d =>
      intro t n expire hg ht
      dsimp only at ht
      exact h t n expire hg (by omega)

omit [DecidableEq Token] [DecidableEq LockName] in
/-- Whatever is granted and kept, one client holds. -/
theorem State.Kept.exclusive (h : s.Kept) {t t' : Token} {name : LockName} (ht : s.Holds t name)
    (ht' : s.Holds t' name) : t = t' := by
  obtain ⟨expire, hg, hlt⟩ := ht
  obtain ⟨expire', hg', hlt'⟩ := ht'
  obtain ⟨doc, hdoc, hvalue, -⟩ := h t name expire hg hlt
  obtain ⟨doc', hdoc', hvalue', -⟩ := h t' name expire' hg' hlt'
  rw [hdoc] at hdoc'
  cases hdoc'
  exact hvalue.symm.trans hvalue'

/-! ## What a call leaves behind -/

/-- The client is in a call, and its token was not in the collection when the
call began. -/
def Client.Fresh : Client LockName → Prop
  | .idle => False
  | .trying call | .asked call _ | .answered call _ _ | .sleeping call => call.held = false

/-- The upsert of the call has gone through. -/
def Client.Answered : Client LockName → Prop
  | .answered _ _ _ => True
  | _ => False

/-- Until its upsert goes through, the token of such a call is not stored. -/
def State.Clean (s : State Token LockName) : Prop :=
  ∀ token, (s.clients token).Fresh → ¬ (s.clients token).Answered → ¬ s.Stored token

omit [DecidableEq LockName] in
theorem clients_setClient (t token : Token) (c : Client LockName) :
    (s.setClient token c).clients t = if t = token then c else s.clients t := by
  unfold State.setClient
  by_cases h : t = token
  · subst h
    simp
  · simp [h]

omit [DecidableEq LockName] in
/-- Giving a client a place of its own keeps the rest clean. -/
theorem State.Clean.setClient (h : s.Clean) {token : Token} {c : Client LockName}
    (hc : c.Fresh → ¬ c.Answered → ¬ s.Stored token) : (s.setClient token c).Clean := by
  intro t hf ha
  rw [clients_setClient] at hf ha
  split_ifs at hf ha with ht
  · subst ht
    exact hc hf ha
  · exact h t hf ha

omit [DecidableEq Token] in
theorem stored_of_delete {name : LockName} {t : Token} (h : (s.putLock name none).Stored t) :
    s.Stored t := by
  obtain ⟨n, doc, hdoc, hvalue⟩ := h
  by_cases hn : n = name
  · subst hn
    rw [putLock_self] at hdoc
    cases hdoc
  · rw [putLock_of_ne hn] at hdoc
    exact ⟨n, doc, hdoc, hvalue⟩

theorem clean_step (h : s.Clean) (hstep : Step s e s') : s'.Clean := by
  cases hstep with
  | @begin token call hidle hheld =>
      refine h.setClient fun hf _ hstored => ?_
      exact absurd (hheld.mpr hstored) (by simpa [Client.Fresh] using hf)
  | @clock token call now hc =>
      have hhere := h token
      rw [hc] at hhere
      exact h.setClient fun hf ha => hhere hf ha
  | @upsert token call now hasked hfree =>
      intro t hf ha
      have hclient : (s.upsert token call now).clients t
          = if t = token then .answered call now s.time else s.clients t := clients_setClient ..
      rw [hclient] at hf ha
      split_ifs at hf ha with ht
      · exact absurd trivial ha
      · rintro ⟨n, doc, hdoc, hvalue⟩
        change (s.putLock call.lockName _).locks n = some doc at hdoc
        by_cases hn : n = call.lockName
        · subst hn
          rw [putLock_self] at hdoc
          cases hdoc
          exact ht hvalue.symm
        · rw [putLock_of_ne hn] at hdoc
          exact h t hf ha ⟨n, doc, hdoc, hvalue⟩
  | @duplicate token call now doc w hasked hdoc hne htime hw =>
      have hhere := h token
      rw [hasked] at hhere
      exact h.setClient fun hf ha => hhere hf ha
  | returnNull | error | returnToken | throwSkew => exact h.setClient fun hf => hf.elim
  | @wake token call hc =>
      have hhere := h token
      rw [hc] at hhere
      exact h.setClient fun hf ha => hhere hf ha
  | release hidle hdoc hvalue => exact fun t hf ha hst => h t hf ha (stored_of_delete hst)
  | releaseExpired => exact h
  | expire hdoc hle => exact fun t hf ha hst => h t hf ha (stored_of_delete hst)
  | tick => exact h

/-! ## Runs -/

omit [DecidableEq Token] [DecidableEq LockName] in
theorem init_kept (h : s.Init) : s.Kept := by
  intro t n expire hg
  rw [h.2.2] at hg
  cases hg

omit [DecidableEq Token] [DecidableEq LockName] in
theorem init_clean (h : s.Init) : s.Clean := by
  intro t hf
  rw [h.2.1] at hf
  exact hf.elim

theorem reachable_kept {P : State Token LockName → Event Token LockName → Prop}
    (h : Reachable State.Init (Next P) s) : s.Kept :=
  h.invariant (fun _ => init_kept) fun _ _ hk ⟨_, _, hstep⟩ => kept_step hk hstep

theorem reachable_clean {P : State Token LockName → Event Token LockName → Prop}
    (h : Reachable State.Init (Next P) s) : s.Clean :=
  h.invariant (fun _ => init_clean) fun _ _ hc ⟨_, _, hstep⟩ => clean_step hc hstep

omit [DecidableEq LockName] in
theorem stored_setClient {t token : Token} {c : Client LockName} :
    (s.setClient token c).Stored t ↔ s.Stored t := Iff.rfl

/-- A token that does not hold the lock frees nothing. -/
theorem release_unheld {token : Token} {name : LockName}
    (hno : ∀ doc, s.locks name = some doc → doc.value ≠ token)
    (hstep : Step s (.release token name) s') : s'.locks = s.locks := by
  cases hstep with
  | release hidle hdoc hvalue => exact absurd hvalue (hno _ hdoc)
  | releaseExpired => rfl

/-- The call ends with null or throws. -/
def Event.Fails (token : Token) : Event Token LockName → Prop
  | .returnNull t | .error t | .throwSkew t => t = token
  | _ => False

/-- A call that fails before its upsert has gone through leaves nothing behind. -/
theorem fails_unanswered (hclean : s.Clean) {token : Token} (hfails : e.Fails token)
    (hfresh : (s.clients token).Fresh) (hno : ¬ (s.clients token).Answered)
    (hstep : Step s e s') : ¬ s'.Stored token := by
  have hnot := hclean token hfresh hno
  cases hstep with
  | returnNull | error | throwSkew => exact fun h => hnot (stored_setClient.mp h)
  | begin | clock | upsert | duplicate | wake | returnToken | release | releaseExpired | expire
    | tick => exact hfails.elim

/-- A call that finds the clocks apart throws and leaves its lock behind. -/
theorem throwSkew_leaks {P : State Token LockName → Event Token LockName → Prop}
    (h : Reachable State.Init (Next P) s) {token : Token} {name : LockName}
    (hholds : s.Holds token name) (hstep : Step s (.throwSkew token) s') : s'.Stored token := by
  obtain ⟨expire, hg, hlt⟩ := hholds
  obtain ⟨doc, hdoc, hvalue, -⟩ := reachable_kept h token name expire hg hlt
  cases hstep with
  | throwSkew hc hskew => exact stored_setClient.mpr ⟨name, doc, hdoc, hvalue⟩

/-! ## Clocks that agree -/

/-- An upsert goes through only while the clock of the database is within the
tolerance of what the client read before. -/
def Orderly (s : State Token LockName) : Event Token LockName → Prop
  | .upsert token => ∀ call now, s.clients token = .asked call now →
      (s.time - now).natAbs ≤ CLOCK_SKEW_TOLERANCE
  | _ => True

/-- No answer is about to be thrown away. -/
def State.Synced (s : State Token LockName) : Prop :=
  ∀ token call now timestamp, s.clients token = .answered call now timestamp →
    (timestamp - now).natAbs ≤ CLOCK_SKEW_TOLERANCE

omit [DecidableEq LockName] in
theorem State.Synced.setClient (h : s.Synced) {token : Token} {c : Client LockName}
    (hc : ∀ call now timestamp, c = .answered call now timestamp →
      (timestamp - now).natAbs ≤ CLOCK_SKEW_TOLERANCE) : (s.setClient token c).Synced := by
  intro t call now timestamp ht
  rw [clients_setClient] at ht
  split_ifs at ht with heq
  · exact hc call now timestamp ht
  · exact h t call now timestamp ht

theorem synced_step (h : s.Synced) (hok : Orderly s e) (hstep : Step s e s') : s'.Synced := by
  cases hstep with
  | begin | clock | duplicate | returnNull | error | wake | returnToken | throwSkew =>
      exact h.setClient fun _ _ _ heq => nomatch heq
  | upsert hasked hfree =>
      refine State.Synced.setClient h fun call now timestamp heq => ?_
      cases heq
      exact hok _ _ hasked
  | release | releaseExpired | expire | tick => exact h

theorem reachable_synced (h : Reachable State.Init (Next Orderly) s) : s.Synced :=
  h.invariant
    (fun _ hinit t _ _ _ ht => by
      rw [hinit.2.1] at ht
      cases ht)
    fun _ _ hs ⟨_, hok, hstep⟩ => synced_step hs hok hstep

/-- In every run in which the clocks agree: one client holds a lock at a time,
a token that does not hold it frees nothing, and a failed call of a token that
was not stored leaves it so. -/
theorem locks_exclude (h : Reachable State.Init (Next Orderly) s) :
    (∀ t t' name, s.Holds t name → s.Holds t' name → t = t')
      ∧ (∀ t name s', (∀ doc, s.locks name = some doc → doc.value ≠ t) →
        Step s (.release t name) s' → s'.locks = s.locks)
      ∧ ∀ t e s', e.Fails t → (s.clients t).Fresh → Step s e s' → ¬ s'.Stored t := by
  refine ⟨fun t t' name => (reachable_kept h).exclusive, fun t name s' => release_unheld, ?_⟩
  intro t e s' hfails hfresh hstep
  refine fails_unanswered (reachable_clean h) hfails hfresh (fun ha => ?_) hstep
  cases hc : s.clients t with
  | answered call now timestamp =>
      have hsync := reachable_synced h t call now timestamp hc
      cases hstep with
      | throwSkew hc' hskew =>
          obtain rfl : _ = t := hfails
          rw [hc] at hc'
          cases hc'
          exact hskew hsync
      | returnNull hc' | error hc' =>
          obtain rfl : _ = t := hfails
          rw [hc] at hc'
          cases hc'
      | begin | clock | upsert | duplicate | wake | returnToken | release | releaseExpired
        | expire | tick => exact hfails.elim
  | idle | trying | asked | sleeping =>
      rw [hc] at ha
      exact ha

end

/-! ## Two runs -/

/-- Nobody has done anything. -/
def empty (time : Int) : State Nat Nat where
  locks _ := none
  time := time
  clients _ := .idle
  granted _ _ := none

theorem empty_init (time : Int) : (empty time).Init :=
  ⟨fun _ => rfl, fun _ => rfl, fun _ _ => rfl⟩

theorem empty_stored (time : Int) (token : Nat) : ¬ (empty time).Stored token :=
  fun ⟨_, _, h, _⟩ => nomatch h

/-- `acquireLock(7, 5000)`. -/
def firstCall : Call Nat := ⟨7, 5000, 0, false⟩

/-- Client 1 is about to get its answer, `d` milliseconds after reading its clock. -/
def answered (d : Int) : State Nat Nat :=
  (((empty d).setClient 1 (.trying firstCall)).setClient 1 (.asked firstCall 0)).upsert 1 firstCall 0

theorem answered_reachable (P : State Nat Nat → Event Nat Nat → Prop) (d : Int)
    (hbegin : ∀ s, P s (.begin 1)) (hclock : ∀ s, P s (.clock 1))
    (hupsert : ∀ s, s.time = d → s.clients 1 = .asked firstCall 0 → P s (.upsert 1)) :
    Reachable State.Init (Next P) (answered d) := by
  have h0 : Reachable State.Init (Next P) (empty d) := .init (empty_init d)
  have h1 := h0.step ⟨_, hbegin _, @Step.begin Nat Nat _ _ (empty d) 1 firstCall rfl
    ⟨(fun h => nomatch h), fun h => (empty_stored d 1 h).elim⟩⟩
  have h2 := h1.step ⟨_, hclock _, Step.clock 0 (clients_setClient ..)⟩
  exact h2.step ⟨_, hupsert _ rfl (clients_setClient ..),
    Step.upsert (clients_setClient ..) fun _ h => nomatch h⟩

/-- A clock 10 ms off: the lock is granted, and everything above holds. -/
theorem locks_exclude_answered :
    (answered 10).Holds 1 7
      ∧ (∀ t t' name, (answered 10).Holds t name → (answered 10).Holds t' name → t = t')
      ∧ (∀ t name s', (∀ doc, (answered 10).locks name = some doc → doc.value ≠ t) →
        Step (answered 10) (.release t name) s' → s'.locks = (answered 10).locks)
      ∧ ∀ t e s', e.Fails t → ((answered 10).clients t).Fresh → Step (answered 10) e s' →
        ¬ s'.Stored t := by
  have hreach : Reachable State.Init (Next Orderly) (answered 10) := by
    refine answered_reachable Orderly 10 (fun _ => trivial) (fun _ => trivial) ?_
    intro s htime hc call now hasked
    rw [hc] at hasked
    cases hasked
    rw [htime]
    decide
  exact ⟨⟨35000, rfl, by decide⟩, locks_exclude hreach⟩

/-- A clock 40 s ahead: the call throws, and the lock stays for another 75 s. -/
theorem acquireLock_leaks :
    ∃ s', Reachable State.Init (Next fun _ _ => True) (answered (-40000))
      ∧ ((answered (-40000)).clients 1).Fresh ∧ Step (answered (-40000)) (.throwSkew 1) s'
      ∧ Event.Fails 1 (.throwSkew 1 : Event Nat Nat) ∧ s'.Stored 1 := by
  have hanswered : (answered (-40000)).clients 1 = .answered firstCall 0 (-40000) := rfl
  refine ⟨_, answered_reachable _ (-40000) (fun _ => trivial) (fun _ => trivial)
    (fun _ _ _ => trivial), ?_, Step.throwSkew hanswered (by decide), rfl,
    stored_setClient.mpr ⟨7, _, rfl, rfl⟩⟩
  rw [hanswered]
  exact rfl

end Lock

end GenieAcs
