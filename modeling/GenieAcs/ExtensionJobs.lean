import Mathlib.Logic.Function.Basic
import GenieAcs.Expression
import GenieAcs.Lib.Promises

/-!
# Extension jobs

An extension script runs in a process of its own, which answers the jobs it is
sent. `run` forks a process when there is none for the script, and gives up on a
job after a while. Messages may be lost with a process, a process may fail at any
time, and a script may call back when it likes, more than once or never.

Each job is settled at most once, and does not wait after its timer
(`Runs.settles_once`). What it is settled with is its own: the first thing the script
called back for it, a fault of the process that got it, or the timeout
(`Runs.settles_own`).
-/

namespace GenieAcs

namespace Extension

/-! ## Faults -/

/-- An exception of a script; an empty text stands for what is not there. -/
structure ScriptError where
  /-- The exception in a template literal. -/
  text : JsString
  name : JsString
  message : JsString
  stack : JsString

structure FaultDetail where
  name : JsString
  message : JsString
  stack : Option JsString

structure Fault where
  code : JsString
  message : JsString
  detail : Option FaultDetail

/-- A job, by its id, is given a fault and a value. -/
abbrev Answer (V : Type) := Option Fault × Option V

section

/- What is left of a stack trace without the lines of `genieacs-ext`. -/
variable (trimStack : JsString → JsString)

def errorToFault (err : ScriptError) : Fault :=
  if err.name = [] then ⟨js "ext", err.text, none⟩
  else ⟨js "ext." ++ err.name, err.message, some
    ⟨err.name, err.message, if err.stack = [] then none else some (trimStack err.stack)⟩⟩

end

def noSuchFunction (args : List JsString) (fileName : JsString) : Fault :=
  ⟨js "ext", js "No such function '" ++ args.headD (js "undefined") ++ js "' in extension '"
    ++ fileName ++ js "'", none⟩

def timedOut : Fault := ⟨js "timeout", js "Extension timed out", none⟩

/-! ## The process of a script -/

structure Child (V : Type) where
  scriptName : JsString
  /-- The job that forked the process, and is told if that failed. -/
  forkedFor : ℕ
  /-- As the parent sees it. -/
  connected : Bool
  inbox : List (ℕ × List JsString)
  jobs : List ℕ
  /-- The jobs whose function was called. -/
  called : List ℕ
  /-- The process can send. -/
  channel : Bool
  outbox : List (ℕ × Answer V)
  /-- The messages there were, what was called back, and the exceptions that nobody caught. -/
  received : List (ℕ × List JsString)
  callbacks : List (ℕ × Option ScriptError × Option V)
  exceptions : List ScriptError
  /-- The errors of the process, by name and message. -/
  errors : List (JsString × JsString)

namespace Child

variable {V : Type}

def fork (scriptName : JsString) (id : ℕ) (connected : Bool) : Child V :=
  ⟨scriptName, id, connected, [], [], [], true, [], [], [], [], []⟩

/-- The parent sends a job. -/
def post (c : Child V) (id : ℕ) (args : List JsString) : Child V :=
  if c.connected then { c with inbox := c.inbox ++ [(id, args)] } else c

/-- `process.send` -/
def send (c : Child V) (answers : List (ℕ × Answer V)) : Child V :=
  if c.channel then { c with outbox := c.outbox ++ answers } else c

/-- `jobs.add` -/
def accept (c : Child V) (m : ℕ × List JsString) (inbox : List (ℕ × List JsString)) : Child V :=
  { c with
    inbox
    jobs := if m.1 ∈ c.jobs then c.jobs else c.jobs ++ [m.1]
    received := c.received ++ [m] }

/-- A message comes in; the script has the function if `known`. -/
def onMessage (c : Child V) (known : Bool) : Child V :=
  match c.inbox with
  | [] => c
  | m :: inbox =>
    if known then { c.accept m inbox with called := c.called ++ [m.1] }
    else (c.accept m inbox).send [(m.1, some (noSuchFunction m.2 c.scriptName), none)]

/-- `jobs.delete` -/
def finish (c : Child V) (id : ℕ) (err : Option ScriptError) (res : Option V) : Child V :=
  { c with jobs := c.jobs.erase id, callbacks := c.callbacks ++ [(id, err, res)] }

/-- The function that was called for a job calls back. -/
def callback (trimStack : JsString → JsString) (c : Child V) (id : ℕ) (err : Option ScriptError)
    (res : Option V) : Child V :=
  if id ∈ c.jobs then
    (c.finish id err res).send [(id, err.map (errorToFault trimStack), res)]
  else c.finish id err res

/-- All jobs are told, and the process disconnects. -/
def uncaughtException (trimStack : JsString → JsString) (c : Child V) (err : ScriptError) :
    Child V :=
  { ({ c with exceptions := c.exceptions ++ [err] } : Child V).send
      (c.jobs.map fun id => (id, some (errorToFault trimStack err), none)) with
    jobs := []
    channel := false }

/-- The process is gone, and of what it sent only the first `n` messages come through. -/
def exit (c : Child V) (n : ℕ) : Child V :=
  { c with inbox := [], channel := false, outbox := c.outbox.take n }

end Child

end Extension

/-! ## The parent process -/

open Extension

/-- `processes` and `jobs`, and the processes that were ever forked. -/
structure Extensions (V : Type) where
  processes : JsString → Option ℕ
  child : ℕ → Option (Child V)
  jobs : Promises ℕ (Answer V)

namespace Extensions

variable {V : Type}

def start : Extensions V := ⟨fun _ => none, fun _ => none, .empty⟩

/-- A process does something. -/
def modify (s : Extensions V) (pid : ℕ) (f : Child V → Child V) : Extensions V :=
  { s with child := Function.update s.child pid ((s.child pid).map f) }

/-- The process of the script, `pid` if it has to be forked. -/
def ensure (s : Extensions V) (scriptName : JsString) (id pid : ℕ) (connected : Bool) :
    Extensions V :=
  if (s.processes scriptName).isSome then s
  else { s with
    processes := Function.update s.processes scriptName (some pid)
    child := Function.update s.child pid (some (.fork scriptName id connected)) }

/-- A job is begun, with the arguments `scriptName :: args`. -/
def run (s : Extensions V) (id pid : ℕ) (connected : Bool) (scriptName : JsString)
    (args : List JsString) : Extensions V :=
  { (s.ensure scriptName id pid connected).modify ((s.processes scriptName).getD pid)
      (·.post id args) with jobs := s.jobs.ask id }

def forget (s : Extensions V) (scriptName : JsString) : Extensions V :=
  { s with processes := Function.update s.processes scriptName none }

def onError (s : Extensions V) (pid : ℕ) (name message : JsString) : Extensions V :=
  match s.child pid with
  | none => s
  | some c =>
    let s := s.modify pid fun c => { c with errors := c.errors ++ [(name, message)] }
    if s.processes c.scriptName = some pid then
      { s.forget c.scriptName with
        jobs := s.jobs.settle c.forkedFor (some ⟨name, message, none⟩, none) }
    else s

def onDisconnect (s : Extensions V) (pid : ℕ) : Extensions V :=
  match s.child pid with
  | none => s
  | some c => if s.processes c.scriptName = some pid then s.forget c.scriptName else s

def onMessage (s : Extensions V) (pid : ℕ) : Extensions V :=
  match (s.child pid).map Child.outbox with
  | some ((id, answer) :: outbox) =>
    { s.modify pid fun c => { c with outbox } with jobs := s.jobs.plan id answer }
  | _ => s

def onTimeout (s : Extensions V) (id : ℕ) : Extensions V :=
  { s with jobs := s.jobs.expire id (some timedOut, none) }

/-- A planned call of `resolve` is made. -/
def onImmediate (s : Extensions V) : Extensions V := { s with jobs := s.jobs.pass }

def killAll (s : Extensions V) : Extensions V := { s with processes := fun _ => none }

/-! ## Runs -/

structure Job where
  id : ℕ
  scriptName : JsString
  args : List JsString

section

variable (trimStack : JsString → JsString)

/-- Something happens, other than a call of `run`. -/
inductive Step : Extensions V → Extensions V → Prop where
  | error (s : Extensions V) (pid : ℕ) (name message : JsString) :
      Step s (s.onError pid name message)
  | hangUp (s : Extensions V) (pid : ℕ) :
      Step s (s.modify pid fun c => { c with connected := false })
  | disconnect (s : Extensions V) (pid : ℕ) : Step s (s.onDisconnect pid)
  | message (s : Extensions V) (pid : ℕ) : Step s (s.onMessage pid)
  | timeout (s : Extensions V) (id : ℕ) : id ∈ s.jobs.timers → Step s (s.onTimeout id)
  | immediate (s : Extensions V) : Step s s.onImmediate
  | killAll (s : Extensions V) : Step s s.killAll
  | receive (s : Extensions V) (pid : ℕ) (known : Bool) : Step s (s.modify pid (·.onMessage known))
  | callback (s : Extensions V) (pid id : ℕ) (err : Option ScriptError) (res : Option V) :
      (∀ c, s.child pid = some c → id ∈ c.called) →
      Step s (s.modify pid (·.callback trimStack id err res))
  | uncaughtException (s : Extensions V) (pid : ℕ) (err : ScriptError) :
      Step s (s.modify pid (·.uncaughtException trimStack err))
  | exit (s : Extensions V) (pid n : ℕ) : Step s (s.modify pid (·.exit n))

/-- The jobs that were begun, with ids that were drawn for them, and the state then. -/
inductive Runs : List Job → Extensions V → Prop where
  | start : Runs [] start
  | run {asked : List Job} {s : Extensions V} (job : Job) (pid : ℕ) (connected : Bool) :
      Runs asked s → job.id ∉ asked.map Job.id → s.child pid = none →
      Runs (asked ++ [job]) (s.run job.id pid connected job.scriptName job.args)
  | step {asked : List Job} {s s' : Extensions V} :
      Runs asked s → Step trimStack s s' → Runs asked s'

end

end Extensions

/-! ## What a process keeps -/

namespace Extension.Child

variable {V : Type} {trimStack : JsString → JsString} {asked : List Extensions.Job} {c : Child V}

/-- The answer is the first callback for the job, or says that there is no such function, or is
an exception that nobody caught. -/
def Answers (trimStack : JsString → JsString) (c : Child V) (id : ℕ) (args : List JsString)
    (answer : Answer V) : Prop :=
  (∃ err res, c.callbacks.find? (·.1 = id) = some (id, err, res)
      ∧ answer = (err.map (errorToFault trimStack), res))
    ∨ answer = (some (noSuchFunction args c.scriptName), none)
    ∨ ∃ err ∈ c.exceptions, answer = (some (errorToFault trimStack err), none)

/-- `c'` is the process `c` at a later time. -/
structure Becomes (c c' : Child V) : Prop where
  scriptName : c'.scriptName = c.scriptName
  forkedFor : c'.forkedFor = c.forkedFor
  received : c.received ⊆ c'.received
  callbacks : c.callbacks <+: c'.callbacks
  exceptions : c.exceptions ⊆ c'.exceptions
  errors : c.errors ⊆ c'.errors

theorem Becomes.refl (c : Child V) : Becomes c c :=
  ⟨rfl, rfl, List.Subset.refl _, List.prefix_rfl, List.Subset.refl _, List.Subset.refl _⟩

theorem Becomes.trans {c₁ c₂ c₃ : Child V} (h : Becomes c₁ c₂) (h' : Becomes c₂ c₃) :
    Becomes c₁ c₃ where
  scriptName := h'.scriptName.trans h.scriptName
  forkedFor := h'.forkedFor.trans h.forkedFor
  received := List.Subset.trans h.received h'.received
  callbacks := h.callbacks.trans h'.callbacks
  exceptions := List.Subset.trans h.exceptions h'.exceptions
  errors := List.Subset.trans h.errors h'.errors

theorem Answers.becomes {c' : Child V} (hc : Becomes c c') {id : ℕ} {args : List JsString}
    {answer : Answer V} (h : c.Answers trimStack id args answer) :
    c'.Answers trimStack id args answer := by
  rcases h with ⟨err, res, hfind, hanswer⟩ | hanswer | ⟨err, hmem, hanswer⟩
  · obtain ⟨later, hlater⟩ := hc.callbacks
    refine .inl ⟨err, res, ?_, hanswer⟩
    rw [← hlater, List.find?_append, hfind]
    rfl
  · exact .inr (.inl (hc.scriptName ▸ hanswer))
  · exact .inr (.inr ⟨err, hc.exceptions hmem, hanswer⟩)

structure Sound (trimStack : JsString → JsString) (asked : List Extensions.Job) (c : Child V) :
    Prop where
  posted : ∀ m ∈ c.received ++ c.inbox, ⟨m.1, c.scriptName, m.2⟩ ∈ asked
  nodup : ((c.received ++ c.inbox).map Prod.fst).Nodup
  called : c.called ⊆ c.received.map Prod.fst
  callbacks : c.callbacks.map Prod.fst ⊆ c.called
  jobs_nodup : c.jobs.Nodup
  jobs : c.jobs ⊆ c.received.map Prod.fst
  /-- What is still to do has not been called back. -/
  open_jobs : ∀ id ∈ c.jobs, id ∉ c.callbacks.map Prod.fst
  outbox : ∀ e ∈ c.outbox, ∃ args, (e.1, args) ∈ c.received ∧ c.Answers trimStack e.1 args e.2

theorem Sound.fork (scriptName : JsString) (id : ℕ) (connected : Bool) :
    (fork scriptName id connected : Child V).Sound trimStack asked := by
  constructor <;> simp [Child.fork]

theorem Sound.weaken (h : c.Sound trimStack asked) (job : Extensions.Job) :
    c.Sound trimStack (asked ++ [job]) :=
  { h with posted := fun m hm => List.mem_append_left _ (h.posted m hm) }

theorem Sound.post {id : ℕ} {args : List JsString} (h : c.Sound trimStack asked)
    (hid : id ∉ asked.map Extensions.Job.id) :
    (c.post id args).Sound trimStack (asked ++ [⟨id, c.scriptName, args⟩]) := by
  have hnew : id ∉ (c.received ++ c.inbox).map Prod.fst := by
    intro hmem
    obtain ⟨m, hm, rfl⟩ := List.mem_map.mp hmem
    exact hid (List.mem_map.mpr ⟨_, h.posted m hm, rfl⟩)
  rw [Child.post]
  split_ifs
  · exact { h.weaken ⟨id, c.scriptName, args⟩ with
      posted := fun m hm => by
        rw [← List.append_assoc] at hm
        rcases List.mem_append.mp hm with hm | hm
        · exact List.mem_append_left _ (h.posted m hm)
        · rw [List.mem_singleton.mp hm]
          exact List.mem_append_right _ List.mem_cons_self
      nodup := by
        rw [← List.append_assoc, List.map_append]
        refine List.nodup_append.mpr ⟨h.nodup, List.nodup_singleton id, fun j hj k hk => ?_⟩
        rw [List.mem_singleton.mp hk]
        exact fun heq => hnew ((show j = id from heq) ▸ hj) }
  · exact h.weaken _

theorem Becomes.post (c : Child V) (id : ℕ) (args : List JsString) :
    Becomes c (c.post id args) := by
  rw [Child.post]
  split_ifs
  · exact { Becomes.refl c with }
  · exact .refl c

/-- A process that sends answers to jobs it received. -/
theorem Sound.send {answers : List (ℕ × Answer V)} (h : c.Sound trimStack asked)
    (hanswers : ∀ e ∈ answers, ∃ args, (e.1, args) ∈ c.received
      ∧ c.Answers trimStack e.1 args e.2) : (c.send answers).Sound trimStack asked := by
  rw [Child.send]
  split_ifs
  · exact { h with
      outbox := fun e he => (List.mem_append.mp he).elim (h.outbox e) (hanswers e) }
  · exact h

theorem Becomes.send (c : Child V) (answers : List (ℕ × Answer V)) :
    Becomes c (c.send answers) := by
  rw [Child.send]
  split_ifs
  · exact { Becomes.refl c with }
  · exact .refl c

theorem Becomes.accept (c : Child V) (m : ℕ × List JsString)
    (inbox : List (ℕ × List JsString)) : Becomes c (c.accept m inbox) :=
  { Becomes.refl c with received := List.subset_append_left _ _ }

theorem Sound.accept {m : ℕ × List JsString} {inbox : List (ℕ × List JsString)}
    (h : c.Sound trimStack asked) (hinbox : c.inbox = m :: inbox) :
    (c.accept m inbox).Sound trimStack asked := by
  have hposted := h.posted
  have hnodup := h.nodup
  rw [hinbox, List.append_cons] at hposted hnodup
  have hnew : m.1 ∉ c.received.map Prod.fst := fun hmem => by
    rw [List.map_append, List.map_append, List.append_assoc] at hnodup
    exact (List.nodup_append.mp hnodup).2.2 m.1 hmem m.1 (by simp) rfl
  have hreceived : c.received.map Prod.fst ⊆ (c.received ++ [m]).map Prod.fst := by
    rw [List.map_append]
    exact List.subset_append_left _ _
  have hjobs : ∀ id ∈ (c.accept m inbox).jobs, id ∈ c.jobs ∨ id = m.1 := by
    intro id hid
    rw [Child.accept] at hid
    split_ifs at hid
    · exact .inl hid
    · exact (List.mem_append.mp hid).imp_right List.mem_singleton.mp
  exact {
    posted := hposted
    nodup := hnodup
    called := List.Subset.trans h.called hreceived
    callbacks := h.callbacks
    jobs_nodup := by
      rw [Child.accept]
      split_ifs with hm
      · exact h.jobs_nodup
      · exact List.concat_eq_append ▸ h.jobs_nodup.concat hm
    jobs := fun id hid => (hjobs id hid).elim (fun hid => hreceived (h.jobs hid))
      fun heq => by simp [heq, Child.accept]
    open_jobs := fun id hid => (hjobs id hid).elim (h.open_jobs id) fun heq hmem =>
      hnew (h.called (h.callbacks (heq ▸ hmem)))
    outbox := fun e he => by
      obtain ⟨args, hmem, hanswers⟩ := h.outbox e he
      exact ⟨args, List.mem_append_left _ hmem, hanswers.becomes (.accept c m inbox)⟩ }

theorem Sound.onMessage {known : Bool} (h : c.Sound trimStack asked) :
    (c.onMessage known).Sound trimStack asked := by
  rw [Child.onMessage]
  cases hinbox : c.inbox with
  | nil => exact h
  | cons m inbox =>
      have hsound := h.accept hinbox
      have hlast : m ∈ (c.accept m inbox).received :=
        List.mem_append_right _ List.mem_cons_self
      dsimp only
      split_ifs
      · exact { hsound with
          called := List.append_subset.mpr ⟨hsound.called, fun id hid => by
            rw [List.mem_singleton.mp hid]
            exact List.mem_map_of_mem hlast⟩
          callbacks := List.Subset.trans hsound.callbacks (List.subset_append_left _ _) }
      · refine hsound.send fun e he => ?_
        rw [List.mem_singleton.mp he]
        exact ⟨m.2, hlast, .inr (.inl rfl)⟩

theorem Becomes.onMessage (c : Child V) (known : Bool) : Becomes c (c.onMessage known) := by
  rw [Child.onMessage]
  cases c.inbox with
  | nil => exact .refl c
  | cons m inbox =>
      dsimp only
      split_ifs
      · exact { Becomes.accept c m inbox with }
      · exact (Becomes.accept c m inbox).trans (.send _ _)

theorem Becomes.finish (c : Child V) (id : ℕ) (err : Option ScriptError) (res : Option V) :
    Becomes c (c.finish id err res) :=
  { Becomes.refl c with callbacks := List.prefix_append _ _ }

theorem Sound.finish {id : ℕ} {err : Option ScriptError} {res : Option V}
    (h : c.Sound trimStack asked) (hid : id ∈ c.called) :
    (c.finish id err res).Sound trimStack asked :=
  { h with
    callbacks := by
      rw [Child.finish, List.map_append]
      refine List.append_subset.mpr ⟨h.callbacks, fun j hj => ?_⟩
      rw [show j = id from List.mem_singleton.mp hj]
      exact hid
    jobs_nodup := h.jobs_nodup.erase id
    jobs := List.Subset.trans List.erase_subset h.jobs
    open_jobs := fun j hj => by
      rw [Child.finish, List.map_append, List.mem_append, not_or]
      refine ⟨h.open_jobs j (List.mem_of_mem_erase hj), fun hlast => ?_⟩
      have heq : j = id := List.mem_singleton.mp hlast
      exact h.jobs_nodup.not_mem_erase (heq ▸ hj)
    outbox := fun e he => by
      obtain ⟨args, hmem, hanswers⟩ := h.outbox e he
      exact ⟨args, hmem, hanswers.becomes (.finish c id err res)⟩ }

/-- What is called back first for an open job is its answer. -/
theorem Sound.find?_finish {id : ℕ} {err : Option ScriptError} {res : Option V}
    (h : c.Sound trimStack asked) (hjob : id ∈ c.jobs) :
    (c.finish id err res).callbacks.find? (·.1 = id) = some (id, err, res) := by
  have hnone : c.callbacks.find? (·.1 = id) = none := by
    rw [List.find?_eq_none]
    intro e he heq
    exact h.open_jobs id hjob (List.mem_map.mpr ⟨e, he, of_decide_eq_true heq⟩)
  rw [Child.finish, List.find?_append, hnone]
  simp

theorem Sound.callback {id : ℕ} {err : Option ScriptError} {res : Option V}
    (h : c.Sound trimStack asked) (hid : id ∈ c.called) :
    (c.callback trimStack id err res).Sound trimStack asked := by
  rw [Child.callback]
  split_ifs with hjob
  · refine (h.finish hid).send fun e he => ?_
    rw [List.mem_singleton.mp he]
    obtain ⟨m, hm, heq⟩ := List.mem_map.mp (h.jobs hjob)
    exact ⟨m.2, heq ▸ hm, .inl ⟨err, res, h.find?_finish hjob, rfl⟩⟩
  · exact h.finish hid

theorem Becomes.callback (c : Child V) (id : ℕ) (err : Option ScriptError) (res : Option V) :
    Becomes c (c.callback trimStack id err res) := by
  rw [Child.callback]
  split_ifs
  · exact (Becomes.finish c id err res).trans (.send _ _)
  · exact .finish c id err res

theorem Becomes.raise (c : Child V) (err : ScriptError) :
    Becomes c { c with exceptions := c.exceptions ++ [err] } :=
  { Becomes.refl c with exceptions := List.subset_append_left _ _ }

theorem Sound.uncaughtException {err : ScriptError} (h : c.Sound trimStack asked) :
    (c.uncaughtException trimStack err).Sound trimStack asked := by
  have hraise : Sound trimStack asked { c with exceptions := c.exceptions ++ [err] } := { h with
    outbox := fun e he => by
      obtain ⟨args, hmem, hanswers⟩ := h.outbox e he
      exact ⟨args, hmem, hanswers.becomes (.raise c err)⟩ }
  have hsend : (({ c with exceptions := c.exceptions ++ [err] } : Child V).send
      (c.jobs.map fun id => (id, some (errorToFault trimStack err), none))).Sound
        trimStack asked := by
    refine hraise.send fun e he => ?_
    obtain ⟨id, hid, rfl⟩ := List.mem_map.mp he
    obtain ⟨m, hm, heq⟩ := List.mem_map.mp (h.jobs hid)
    exact ⟨m.2, heq ▸ hm, .inr (.inr ⟨err, List.mem_append_right _ List.mem_cons_self, rfl⟩)⟩
  exact { hsend with
    jobs_nodup := .nil
    jobs := List.nil_subset _
    open_jobs := by simp [Child.uncaughtException] }

theorem Becomes.uncaughtException (c : Child V) (err : ScriptError) :
    Becomes c (c.uncaughtException trimStack err) :=
  { (Becomes.raise c err).trans (.send _ _) with }

/-- Messages are lost. -/
theorem Sound.lose {inbox : List (ℕ × List JsString)} {outbox : List (ℕ × Answer V)}
    (h : c.Sound trimStack asked) (hinbox : inbox.Sublist c.inbox) (houtbox : outbox ⊆ c.outbox)
    (channel : Bool) : Sound trimStack asked { c with inbox, outbox, channel } :=
  { h with
    posted := fun m hm => h.posted m ((hinbox.append_left c.received).subset hm)
    nodup := h.nodup.sublist ((hinbox.append_left c.received).map Prod.fst)
    outbox := fun e he => h.outbox e (houtbox he) }

end Extension.Child

/-! ## What holds after every step -/

namespace Extensions

variable {V : Type} {trimStack : JsString → JsString} {asked : List Job} {s : Extensions V}

/-- The answer is the timeout, an error of the process that was forked for the job, or one that
a process of the script gave for the job. -/
def Owns (trimStack : JsString → JsString) (s : Extensions V) (job : Job) (answer : Answer V) :
    Prop :=
  answer = (some timedOut, none) ∨ ∃ pid c, s.child pid = some c ∧ c.scriptName = job.scriptName
    ∧ ((c.forkedFor = job.id ∧ ∃ e ∈ c.errors, answer = (some ⟨e.1, e.2, none⟩, none))
      ∨ (job.id, job.args) ∈ c.received ∧ c.Answers trimStack job.id job.args answer)

structure Invariant (trimStack : JsString → JsString) (asked : List Job) (s : Extensions V) :
    Prop where
  accounts : s.jobs.Accounts (asked.map Job.id)
  table : ∀ scriptName pid, s.processes scriptName = some pid →
    ∃ c, s.child pid = some c ∧ c.scriptName = scriptName
  children : ∀ pid c, s.child pid = some c → c.Sound trimStack asked
  forkedFor : ∀ pid c, s.child pid = some c →
    ∃ job ∈ asked, job.id = c.forkedFor ∧ job.scriptName = c.scriptName
  results : ∀ e ∈ s.jobs.results, ∃ job ∈ asked, job.id = e.1 ∧ s.Owns trimStack job e.2

theorem Invariant.start : Invariant trimStack [] (start : Extensions V) where
  accounts := .empty
  table _ _ h := by cases h
  children _ _ h := by cases h
  forkedFor _ _ h := by cases h
  results e he := by cases he

/-- A later state of the processes. -/
def Later (s s' : Extensions V) : Prop :=
  ∀ pid c, s.child pid = some c → ∃ c', s'.child pid = some c' ∧ Child.Becomes c c'

theorem Owns.later {s' : Extensions V} (hs : Later s s') {job : Job} {answer : Answer V}
    (h : s.Owns trimStack job answer) : s'.Owns trimStack job answer := by
  refine h.imp_right fun howner => ?_
  obtain ⟨pid, c, hc, hscript, howns⟩ := howner
  obtain ⟨c', hc', hbecomes⟩ := hs pid c hc
  refine ⟨pid, c', hc', hbecomes.scriptName.trans hscript, ?_⟩
  rcases howns with ⟨hid, e, he, hanswer⟩ | ⟨hmem, hanswers⟩
  · exact .inl ⟨hbecomes.forkedFor.trans hid, e, hbecomes.errors he, hanswer⟩
  · exact .inr ⟨hbecomes.received hmem, hanswers.becomes hbecomes⟩

theorem modify_child (s : Extensions V) (pid : ℕ) (f : Child V → Child V) (p : ℕ) :
    (s.modify pid f).child p = if p = pid then (s.child pid).map f else s.child p :=
  Function.update_apply ..

theorem forget_processes (s : Extensions V) (scriptName name : JsString) :
    (s.forget scriptName).processes name
      = if name = scriptName then none else s.processes name :=
  Function.update_apply ..

theorem later_modify {pid : ℕ} {f : Child V → Child V} (hf : ∀ c, Child.Becomes c (f c)) :
    Later s (s.modify pid f) := by
  intro p c hc
  rw [modify_child]
  split_ifs with hp
  · subst hp
    exact ⟨f c, by rw [hc]; rfl, hf c⟩
  · exact ⟨c, hc, .refl c⟩

/-- A process does something that leaves it sound. -/
theorem Invariant.modify {f : Child V → Child V} (h : Invariant trimStack asked s) (pid : ℕ)
    (hf : ∀ c, Child.Becomes c (f c))
    (hsound : ∀ c, s.child pid = some c → (f c).Sound trimStack asked) :
    Invariant trimStack asked (s.modify pid f) where
  accounts := h.accounts
  table scriptName p hp := by
    obtain ⟨c, hc, hscript⟩ := h.table scriptName p hp
    obtain ⟨c', hc', hbecomes⟩ := later_modify hf p c hc
    exact ⟨c', hc', hbecomes.scriptName.trans hscript⟩
  children p c hc := by
    rw [modify_child] at hc
    split_ifs at hc with hp
    · obtain ⟨c₀, hc₀, rfl⟩ := Option.map_eq_some_iff.mp hc
      exact hsound c₀ hc₀
    · exact h.children p c hc
  forkedFor p c hc := by
    rw [modify_child] at hc
    split_ifs at hc with hp
    · obtain ⟨c₀, hc₀, rfl⟩ := Option.map_eq_some_iff.mp hc
      rw [(hf c₀).forkedFor, (hf c₀).scriptName]
      exact h.forkedFor pid c₀ hc₀
    · exact h.forkedFor p c hc
  results e he := by
    obtain ⟨job, hjob, hid, howns⟩ := h.results e he
    exact ⟨job, hjob, hid, howns.later (later_modify hf)⟩

theorem Invariant.forget (h : Invariant trimStack asked s) (scriptName : JsString) :
    Invariant trimStack asked (s.forget scriptName) :=
  { h with
    table := fun name pid hpid => by
      rw [forget_processes] at hpid
      split_ifs at hpid
      exact h.table name pid hpid }

/-- The jobs are handled, and what is new is an answer to the job `id`. -/
theorem Invariant.handle {jobs : Promises ℕ (Answer V)} {answer : Answer V}
    (h : Invariant trimStack asked s) (id : ℕ) (haccounts : jobs.Accounts (asked.map Job.id))
    (hresults : ∀ e ∈ jobs.results, e ∈ s.jobs.results ∨ id ∈ s.jobs.waiting ∧ e = (id, answer))
    (howns : ∀ job ∈ asked, job.id = id → s.Owns trimStack job answer) :
    Invariant trimStack asked { s with jobs } :=
  { h with
    accounts := haccounts
    results := fun e he => by
      rcases hresults e he with he | ⟨hwaiting, rfl⟩
      · exact h.results e he
      · have hasked : id ∈ asked.map Job.id :=
          h.accounts.perm.mem_iff.mpr (List.mem_append_left _ hwaiting)
        obtain ⟨job, hjob, hid⟩ := List.mem_map.mp hasked
        exact ⟨job, hjob, hid, howns job hjob hid⟩ }

/-- A job is known by its id. -/
theorem Invariant.job_inj (h : Invariant trimStack asked s) {job job' : Job} (hjob : job ∈ asked)
    (hjob' : job' ∈ asked) (hid : job.id = job'.id) : job = job' :=
  List.inj_on_of_nodup_map h.accounts.nodup hjob hjob' hid

theorem Invariant.onError (h : Invariant trimStack asked s) (pid : ℕ) (name message : JsString) :
    Invariant trimStack asked (s.onError pid name message) := by
  rw [Extensions.onError]
  cases hc : s.child pid with
  | none => exact h
  | some c =>
      have herror : ∀ c : Child V,
          Child.Becomes c { c with errors := c.errors ++ [(name, message)] } := fun c =>
        { Child.Becomes.refl c with errors := List.subset_append_left _ _ }
      have hsound : ∀ c : Child V, c.Sound trimStack asked →
          Child.Sound trimStack asked { c with errors := c.errors ++ [(name, message)] } :=
        fun c hc => { hc with
          outbox := fun e he => by
            obtain ⟨args, hmem, hanswers⟩ := hc.outbox e he
            exact ⟨args, hmem, hanswers.becomes (herror c)⟩ }
      have hmodify := h.modify pid herror fun c hc => hsound c (h.children pid c hc)
      dsimp only
      split_ifs
      · refine (hmodify.forget c.scriptName).handle c.forkedFor h.accounts.settle
          (fun e he => Promises.mem_results_settle he) fun job hjob hid => .inr ?_
        obtain ⟨job', hjob', hid', hscript⟩ := h.forkedFor pid c hc
        obtain rfl := h.job_inj hjob hjob' (hid.trans hid'.symm)
        refine ⟨pid, { c with errors := c.errors ++ [(name, message)] }, ?_, hscript.symm,
          .inl ⟨hid.symm, (name, message), List.mem_append_right _ List.mem_cons_self, rfl⟩⟩
        show (s.modify pid _).child pid = _
        rw [modify_child, if_pos rfl, hc]
        rfl
      · exact hmodify

theorem Invariant.onDisconnect (h : Invariant trimStack asked s) (pid : ℕ) :
    Invariant trimStack asked (s.onDisconnect pid) := by
  rw [Extensions.onDisconnect]
  cases s.child pid with
  | none => exact h
  | some c =>
      dsimp only
      split_ifs
      · exact h.forget c.scriptName
      · exact h

theorem Invariant.onMessage (h : Invariant trimStack asked s) (pid : ℕ) :
    Invariant trimStack asked (s.onMessage pid) := by
  rw [Extensions.onMessage]
  cases hc : s.child pid with
  | none => exact h
  | some c =>
      rw [Option.map_some]
      cases houtbox : c.outbox with
      | nil => exact h
      | cons m outbox =>
          have hsub : outbox ⊆ c.outbox := by
            rw [houtbox]
            exact List.subset_cons_self m outbox
          have hmodify : Invariant trimStack asked (s.modify pid fun c => { c with outbox }) := by
            refine h.modify pid (fun c => { Child.Becomes.refl c with }) fun c' hc' => ?_
            obtain rfl := Option.some.inj (hc.symm.trans hc')
            exact (h.children pid c hc).lose (List.Sublist.refl _) hsub c.channel
          refine hmodify.handle m.1 h.accounts.plan
            (fun e he => Promises.mem_results_plan he) fun job hjob hid => .inr ?_
          obtain ⟨args, hmem, hanswers⟩ := (h.children pid c hc).outbox m
            (houtbox ▸ List.mem_cons_self)
          have hposted := (h.children pid c hc).posted (m.1, args) (List.mem_append_left _ hmem)
          obtain rfl := h.job_inj hjob hposted hid
          refine ⟨pid, { c with outbox }, ?_, rfl, .inr ⟨hmem, hanswers⟩⟩
          show (s.modify pid _).child pid = _
          rw [modify_child, if_pos rfl, hc]
          rfl

theorem Invariant.step {s' : Extensions V} (h : Invariant trimStack asked s)
    (hstep : Step trimStack s s') : Invariant trimStack asked s' := by
  cases hstep with
  | error pid name message => exact h.onError pid name message
  | hangUp pid =>
      exact h.modify pid (fun c => { Child.Becomes.refl c with }) fun c hc =>
        { h.children pid c hc with }
  | disconnect pid => exact h.onDisconnect pid
  | message pid => exact h.onMessage pid
  | timeout id =>
      refine h.handle id h.accounts.expire
        (fun e he => Promises.mem_results_settle he) fun _ _ _ => .inl rfl
  | immediate =>
      exact { h with
        accounts := h.accounts.pass
        results := fun e he => h.results e ((Promises.results_pass s.jobs).mem_iff.mp he) }
  | killAll => exact { h with table := fun _ _ hpid => by cases hpid }
  | receive pid known =>
      exact h.modify pid (.onMessage · known) fun c hc => (h.children pid c hc).onMessage
  | callback pid id err res hcalled =>
      exact h.modify pid (.callback · id err res) fun c hc =>
        (h.children pid c hc).callback (hcalled c hc)
  | uncaughtException pid err =>
      exact h.modify pid (.uncaughtException · err) fun c hc =>
        (h.children pid c hc).uncaughtException
  | exit pid n =>
      exact h.modify pid (fun c => { Child.Becomes.refl c with }) fun c hc =>
        (h.children pid c hc).lose (List.nil_sublist _) (List.take_subset n _) false

/-- The process that a job is sent to is there, and it is the script's. -/
structure Ensured (trimStack : JsString → JsString) (asked : List Job) (scriptName : JsString)
    (id p : ℕ) (s s' : Extensions V) : Prop where
  later : Later s s'
  sound : ∀ p c, s'.child p = some c → c.Sound trimStack asked
  forkedFor : ∀ p c, s'.child p = some c →
    s.child p = some c ∨ c.forkedFor = id ∧ c.scriptName = scriptName
  table : ∀ name p, s'.processes name = some p → ∃ c, s'.child p = some c ∧ c.scriptName = name
  target : ∃ c, s'.child p = some c ∧ c.scriptName = scriptName

theorem Invariant.ensure (h : Invariant trimStack asked s) (scriptName : JsString) (id pid : ℕ)
    (connected : Bool) (hpid : s.child pid = none) :
    Ensured trimStack asked scriptName id ((s.processes scriptName).getD pid) s
      (s.ensure scriptName id pid connected) := by
  rw [Extensions.ensure]
  cases hp : s.processes scriptName with
  | some p =>
      rw [Option.isSome_some, if_pos rfl]
      exact ⟨fun p c hc => ⟨c, hc, .refl c⟩, h.children, fun p c hc => .inl hc, h.table,
        h.table scriptName p hp⟩
  | none =>
      rw [if_neg (by simp)]
      have hnew : ∀ p c, Function.update s.child pid (some (.fork scriptName id connected)) p
          = some c → s.child p = some c ∨ c = .fork scriptName id connected := by
        intro p c hc
        rw [Function.update_apply] at hc
        split_ifs at hc with hp
        · exact .inr (Option.some.inj hc).symm
        · exact .inl hc
      have hold : ∀ p c, s.child p = some c →
          Function.update s.child pid (some (.fork scriptName id connected)) p = some c := by
        intro p c hc
        rw [Function.update_of_ne (fun heq => by rw [heq, hpid] at hc; cases hc)]
        exact hc
      refine ⟨fun p c hc => ⟨c, hold p c hc, .refl c⟩, fun p c hc => ?_, fun p c hc => ?_,
        fun name p hname => ?_, ⟨.fork scriptName id connected, Function.update_self .., rfl⟩⟩
      · rcases hnew p c hc with hc | rfl
        · exact h.children p c hc
        · exact .fork scriptName id connected
      · rcases hnew p c hc with hc | rfl
        · exact .inl hc
        · exact .inr ⟨rfl, rfl⟩
      · have hname : Function.update s.processes scriptName (some pid) name = some p := hname
        rw [Function.update_apply] at hname
        split_ifs at hname with heq
        · obtain rfl := Option.some.inj hname
          exact ⟨.fork scriptName id connected, Function.update_self .., heq.symm⟩
        · obtain ⟨c, hc, hscript⟩ := h.table name p hname
          exact ⟨c, hold p c hc, hscript⟩

theorem Invariant.run (h : Invariant trimStack asked s) (job : Job) (pid : ℕ) (connected : Bool)
    (hid : job.id ∉ asked.map Job.id) (hpid : s.child pid = none) :
    Invariant trimStack (asked ++ [job])
      (s.run job.id pid connected job.scriptName job.args) := by
  have hensured := h.ensure job.scriptName job.id pid connected hpid
  rw [Extensions.run]
  generalize (s.processes job.scriptName).getD pid = p at hensured ⊢
  generalize s.ensure job.scriptName job.id pid connected = s' at hensured ⊢
  have hpost : Later s' (s'.modify p (·.post job.id job.args)) :=
    later_modify fun c => .post c job.id job.args
  have hchild : ∀ p' c, (s'.modify p (·.post job.id job.args)).child p' = some c →
      ∃ c₀, s'.child p' = some c₀ ∧ Child.Becomes c₀ c ∧ c.Sound trimStack (asked ++ [job]) := by
    intro p' c hc
    rw [modify_child] at hc
    split_ifs at hc with hp
    · obtain ⟨c₀, hc₀, rfl⟩ := Option.map_eq_some_iff.mp hc
      obtain ⟨c₁, hc₁, hscript⟩ := hensured.target
      obtain rfl := Option.some.inj (hc₀.symm.trans hc₁)
      have hsound : (c₀.post job.id job.args).Sound trimStack
          (asked ++ [⟨job.id, c₀.scriptName, job.args⟩]) := (hensured.sound p c₀ hc₀).post hid
      rw [hscript] at hsound
      exact ⟨c₀, hp ▸ hc₀, .post c₀ job.id job.args, hsound⟩
    · exact ⟨c, hc, .refl c, (hensured.sound p' c hc).weaken job⟩
  exact {
    accounts := by
      rw [List.map_append]
      exact h.accounts.ask hid
    table := fun name p' hname => by
      obtain ⟨c, hc, hscript⟩ := hensured.table name p' hname
      obtain ⟨c', hc', hbecomes⟩ := hpost p' c hc
      exact ⟨c', hc', hbecomes.scriptName.trans hscript⟩
    children := fun p' c hc => by
      obtain ⟨-, -, -, hsound⟩ := hchild p' c hc
      exact hsound
    forkedFor := fun p' c hc => by
      obtain ⟨c₀, hc₀, hbecomes, -⟩ := hchild p' c hc
      rw [hbecomes.forkedFor, hbecomes.scriptName]
      rcases hensured.forkedFor p' c₀ hc₀ with hc₀ | ⟨hforked, hscript⟩
      · obtain ⟨job', hjob', hfacts⟩ := h.forkedFor p' c₀ hc₀
        exact ⟨job', List.mem_append_left _ hjob', hfacts⟩
      · exact ⟨job, List.mem_append_right _ List.mem_cons_self, hforked.symm, hscript.symm⟩
    results := fun e he => by
      obtain ⟨job', hjob', hid', howns⟩ := h.results e he
      exact ⟨job', List.mem_append_left _ hjob', hid', (howns.later hensured.later).later hpost⟩ }

theorem Runs.invariant (h : Runs trimStack asked s) : Invariant trimStack asked s := by
  induction h with
  | start => exact .start
  | run job pid connected _ hid hpid ih => exact ih.run job pid connected hid hpid
  | step _ hstep ih => exact ih.step hstep

/-- Whatever the processes do and whatever is lost, a job is settled at most once. Each job waits
and has its timer, or it has a result, which is given to it in a moment or was given to it. -/
theorem Runs.settles_once (h : Runs trimStack asked s) :
    (s.jobs.settled.map Prod.fst).Nodup
      ∧ (asked.map Job.id).Perm
        (s.jobs.waiting ++ (s.jobs.planned.map Prod.fst ++ s.jobs.settled.map Prod.fst))
      ∧ (∀ id ∈ s.jobs.waiting, id ∈ s.jobs.timers)
      ∧ ∀ job ∈ asked, job.id ∉ s.jobs.timers →
        job.id ∈ (s.jobs.planned ++ s.jobs.settled).map Prod.fst :=
  have haccounts := h.invariant.accounts
  ⟨haccounts.nodup_settled, haccounts.perm, haccounts.timed,
    fun _ hjob htimer => haccounts.done (List.mem_map_of_mem hjob) htimer⟩

/-- A job that asks the function `f` of the script `s`. -/
def asksF : Job := ⟨1, js "s", [js "f"]⟩

/-- The function is called, it calls back with 5 and then with 6, and the job gets 5. -/
theorem runs_asksF : ∃ s : Extensions ℕ, Runs id [asksF] s
    ∧ s.jobs.settled = [(1, (none, some 5))] := by
  have hrun : Runs id [asksF] _ := Runs.run (V := ℕ) asksF 0 true .start (by decide) rfl
  have hreceive := hrun.step (.receive _ 0 true)
  have hcallback := hreceive.step (.callback _ 0 1 none (some 5) (fun c hc => by
    cases hc
    decide))
  have hagain := hcallback.step (.callback _ 0 1 none (some 6) (fun c hc => by
    cases hc
    decide))
  exact ⟨_, (hagain.step (.message _ 0)).step (.immediate _), rfl⟩

theorem Runs.settles_once_asksF : ∃ s : Extensions ℕ, s.jobs.settled = [(1, (none, some 5))]
    ∧ ∀ i ∈ s.jobs.waiting, i ∈ s.jobs.timers := by
  obtain ⟨s, h, hsettled⟩ := runs_asksF
  exact ⟨s, hsettled, (Runs.settles_once h).2.2.1⟩

/-- What a job is settled with is its own: the timeout, an error of the process that was forked
for it, or what a process of its script gave that got the job with its arguments. That is the
first thing called back for the job, an exception that nobody caught, or that the script has no
such function. -/
theorem Runs.settles_own (h : Runs trimStack asked s) {id : ℕ} {answer : Answer V}
    (he : (id, answer) ∈ s.jobs.settled) :
    ∃ job ∈ asked, job.id = id ∧ s.Owns trimStack job answer :=
  h.invariant.results (id, answer) (List.mem_append_right _ he)

theorem Runs.settles_own_asksF : ∃ s : Extensions ℕ, s.Owns id asksF (none, some 5) := by
  obtain ⟨s, h, hsettled⟩ := runs_asksF
  have hmem : (1, (none, some 5)) ∈ s.jobs.settled := by
    rw [hsettled]
    exact List.mem_cons_self
  obtain ⟨job, hjob, -, howns⟩ := Runs.settles_own h hmem
  exact ⟨s, List.mem_singleton.mp hjob ▸ howns⟩

end Extensions

end GenieAcs
