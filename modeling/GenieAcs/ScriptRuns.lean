import GenieAcs.Lib.Replay
import GenieAcs.Like

/-!
# Runs of a script

A script runs in the sandbox until it calls `ext` without a cached result or commits
beyond the last revision. `run` starts it again after the extension has answered, and
`rpcRequest` runs it again with the next revision as the last one until it finishes.
Each of these runs begins at the first revision of its level. A line is logged where the
revision is the last one and the counter of `ext` calls is not negative.
-/

namespace GenieAcs

namespace Sandbox

open Replay

/-! ## Scripts -/

/-- A deterministic script that does not catch what the sandbox throws. -/
inductive Script (Msg Dec Clr Attr Val : Type)
  | log (msg : Msg) (next : Script Msg Dec Clr Attr Val)
  | ext (args : List JsString) (next : Val → Script Msg Dec Clr Attr Val)
  | commit (next : Script Msg Dec Clr Attr Val)
  | declare (declaration : Dec) (next : Script Msg Dec Clr Attr Val)
  | clear (entry : Clr) (next : Script Msg Dec Clr Attr Val)
  | read (attr : Attr) (next : Val → Script Msg Dec Clr Attr Val)
  | done (returnValue : Val)

/-- The key of a cached result, `revision: args` as a text. -/
structure Key where
  revision : ℕ
  args : List JsString
  deriving DecidableEq

variable {Msg Dec Clr Attr Val : Type}

/-- The `state` of the sandbox, with what was logged; a declaration with its `defer`. -/
structure State (Msg Dec Clr : Type) where
  revision : ℕ
  uncommitted : Bool := false
  declarations : List (Dec × Bool) := []
  extensions : List Key := []
  clear : List Clr := []
  extCounter : ℤ
  logged : List Msg := []

/-- How a script leaves the context. -/
inductive Status (Val : Type)
  | done (returnValue : Val)
  | commit
  | ext
  | error

abbrev Cache (Val : Type) := Key → Option Val

section

variable (data : ℕ → Attr → Val) (maxRevision : ℕ) (cache : Cache Val)

def commit (s : State Msg Dec Clr) : State Msg Dec Clr × Option (Status Val) :=
  let s := { s with revision := s.revision + 1, uncommitted := false }
  if s.revision = maxRevision + 1 then
    ({ s with declarations := s.declarations.map fun d => (d.1, false) }, some .commit)
  else if maxRevision + 1 < s.revision then (s, some .error)
  else (s, none)

/-- `runInContext`; `data` are the device data at a revision. -/
def runInContext : Script Msg Dec Clr Attr Val → State Msg Dec Clr →
    State Msg Dec Clr × Status Val
  | .log msg next, s =>
      runInContext next
        (if s.revision = maxRevision ∧ 0 ≤ s.extCounter then { s with logged := s.logged ++ [msg] }
        else s)
  | .ext args next, s =>
      let key : Key := ⟨s.revision, args⟩
      match cache key with
      | some v => runInContext (next v) { s with extCounter := s.extCounter + 1 }
      | none =>
          ({ s with extCounter := s.extCounter + 1, extensions := s.extensions ++ [key] }, .ext)
  | .commit next, s =>
      match commit maxRevision s with
      | (s, some status) => (s, status)
      | (s, none) => runInContext next s
  | .declare declaration next, s =>
      runInContext next { s with
        uncommitted := true, declarations := s.declarations ++ [(declaration, true)] }
  | .clear entry next, s =>
      runInContext next { s with
        uncommitted := true,
        clear := if s.revision = maxRevision then s.clear ++ [entry] else s.clear }
  | .read attr next, s =>
      match if s.uncommitted then commit maxRevision s else (s, none) with
      | (s, some status) => (s, status)
      | (s, none) => runInContext (next (data s.revision attr)) s
  | .done returnValue, s => (s, .done returnValue)

end

/-- `ScriptResult`, with what the runs logged. -/
structure ScriptResult (Msg Dec Clr Val : Type) where
  fault : Bool
  clear : List Clr
  declare : List (Dec × Bool)
  done : Bool
  returnValue : Option Val
  logged : List Msg

section

variable (answer : Key → Val) (data : ℕ → Attr → Val)
  (script : Script Msg Dec Clr Attr Val) (startRevision : ℕ)

/-- `runExtension`, for all keys: the results are put into the cache. -/
def runExtensions (cache : Cache Val) (keys : List Key) : Cache Val :=
  keys.foldl (fun cache key => Function.update cache key (some (answer key))) cache

/-- `run`, with `fuel` for its recursion. -/
def run (maxRevision : ℕ) : ℕ → Cache Val → ℤ →
    Option (ScriptResult Msg Dec Clr Val × Cache Val)
  | 0, _, _ => none
  | fuel + 1, cache, extCounter =>
      match runInContext data maxRevision cache script
        { revision := startRevision, extCounter := extCounter } with
      | (s, .error) => some (⟨true, [], [], false, none, s.logged⟩, cache)
      | (s, .ext) =>
          (run maxRevision fuel (runExtensions answer cache s.extensions)
            (extCounter - s.extCounter)).map
              fun r => ({ r.1 with logged := s.logged ++ r.1.logged }, r.2)
      | (s, .commit) =>
          some (⟨false, s.clear, s.declarations, false, none, s.logged⟩,
            runExtensions answer cache s.extensions)
      | (s, .done v) =>
          some (⟨false, s.clear, s.declarations, true, some v, s.logged⟩,
            runExtensions answer cache s.extensions)

/-- The runs that `rpcRequest` makes of the script of a level, until it finishes or
throws: what they log, and the last result. -/
def levelRuns (fuel : ℕ) : ℕ → ℕ → Cache Val → Option (List Msg × ScriptResult Msg Dec Clr Val)
  | 0, _, _ => none
  | rounds + 1, maxRevision, cache =>
      match run answer data script startRevision maxRevision fuel cache 0 with
      | none => none
      | some (result, cache) =>
          if result.fault ∨ result.done then some (result.logged, result)
          else (levelRuns fuel rounds (maxRevision + 1) cache).map
            fun r => (result.logged ++ r.1, r.2)

end

/-! ## The path of a script -/

section

variable (values : Key → Val) (data : ℕ → Attr → Val)

/-- The lines on the path of a script, each with its revision, when `ext` has the results
`values`. -/
def path : Script Msg Dec Clr Attr Val → ℕ → Bool → List (ℕ × Msg)
  | .log msg next, rev, uncommitted => (rev, msg) :: path next rev uncommitted
  | .ext args next, rev, uncommitted => path (next (values ⟨rev, args⟩)) rev uncommitted
  | .commit next, rev, _ => path next (rev + 1) false
  | .declare _ next, rev, _ => path next rev true
  | .clear _ next, rev, _ => path next rev true
  | .read attr next, rev, uncommitted =>
      if uncommitted then path (next (data (rev + 1) attr)) (rev + 1) false
      else path (next (data rev attr)) rev false
  | .done _, _, _ => []

/-- The revision that the script finishes at, and what it returns. -/
def outcome : Script Msg Dec Clr Attr Val → ℕ → Bool → ℕ × Val
  | .log _ next, rev, uncommitted => outcome next rev uncommitted
  | .ext args next, rev, uncommitted => outcome (next (values ⟨rev, args⟩)) rev uncommitted
  | .commit next, rev, _ => outcome next (rev + 1) false
  | .declare _ next, rev, _ => outcome next rev true
  | .clear _ next, rev, _ => outcome next rev true
  | .read attr next, rev, uncommitted =>
      if uncommitted then outcome (next (data (rev + 1) attr)) (rev + 1) false
      else outcome (next (data rev attr)) rev false
  | .done v, rev, _ => (rev, v)

/-- What a run up to a revision comes to, with the lines of this revision only. -/
def events (maxRevision : ℕ) :
    Script Msg Dec Clr Attr Val → ℕ → Bool → List (Event Msg Key)
  | .log msg next, rev, uncommitted =>
      if rev = maxRevision then .out msg :: events maxRevision next rev uncommitted
      else events maxRevision next rev uncommitted
  | .ext args next, rev, uncommitted =>
      .call ⟨rev, args⟩ :: events maxRevision (next (values ⟨rev, args⟩)) rev uncommitted
  | .commit next, rev, _ =>
      if rev = maxRevision then [] else events maxRevision next (rev + 1) false
  | .declare _ next, rev, _ => events maxRevision next rev true
  | .clear _ next, rev, _ => events maxRevision next rev true
  | .read attr next, rev, uncommitted =>
      if uncommitted then
        if rev = maxRevision then []
        else events maxRevision (next (data (rev + 1) attr)) (rev + 1) false
      else events maxRevision (next (data rev attr)) rev false
  | .done _, _, _ => []

/-- The calls of `ext` on the path. -/
def extCalls : Script Msg Dec Clr Attr Val → ℕ → Bool → ℕ
  | .log _ next, rev, uncommitted => extCalls next rev uncommitted
  | .ext args next, rev, uncommitted => extCalls (next (values ⟨rev, args⟩)) rev uncommitted + 1
  | .commit next, rev, _ => extCalls next (rev + 1) false
  | .declare _ next, rev, _ => extCalls next rev true
  | .clear _ next, rev, _ => extCalls next rev true
  | .read attr next, rev, uncommitted =>
      if uncommitted then extCalls (next (data (rev + 1) attr)) (rev + 1) false
      else extCalls (next (data rev attr)) rev false
  | .done _, _, _ => 0

end

variable {values : Key → Val} {data : ℕ → Attr → Val} {maxRevision rev : ℕ}

theorem calls_events (script : Script Msg Dec Clr Attr Val) (rev : ℕ) (uncommitted : Bool) :
    calls (events values data maxRevision script rev uncommitted)
      ≤ extCalls values data script rev uncommitted := by
  induction script generalizing rev uncommitted with
  | log msg next ih =>
      rw [events, extCalls]
      split_ifs
      · exact ih rev uncommitted
      · exact ih rev uncommitted
  | ext args next ih =>
      rw [events, extCalls, calls]
      exact Nat.succ_le_succ (ih _ rev uncommitted)
  | commit next ih =>
      rw [events, extCalls]
      split_ifs
      · exact Nat.zero_le _
      · exact ih (rev + 1) false
  | declare declaration next ih => exact ih rev true
  | clear entry next ih => exact ih rev true
  | read attr next ih =>
      rw [events, extCalls]
      split_ifs
      · exact Nat.zero_le _
      · exact ih _ (rev + 1) false
      · exact ih _ rev false
  | done v => exact Nat.le_refl 0

/-- Revisions only go up. -/
theorem le_of_mem_path {script : Script Msg Dec Clr Attr Val} {uncommitted : Bool}
    {line : ℕ × Msg} (h : line ∈ path values data script rev uncommitted) : rev ≤ line.1 := by
  induction script generalizing rev uncommitted with
  | log msg next ih =>
      rw [path] at h
      rcases List.mem_cons.mp h with rfl | h
      · exact Nat.le_refl rev
      · exact ih h
  | ext args next ih => exact ih _ h
  | commit next ih => exact Nat.le_of_succ_le (ih h)
  | declare declaration next ih => exact ih h
  | clear entry next ih => exact ih h
  | read attr next ih =>
      rw [path] at h
      split_ifs at h
      · exact Nat.le_of_succ_le (ih _ h)
      · exact ih _ h
  | done v => exact absurd h List.not_mem_nil

/-- The lines at a revision. -/
def linesAt (rev : ℕ) (lines : List (ℕ × Msg)) : List Msg :=
  (lines.filter fun line => line.1 = rev).map Prod.snd

theorem linesAt_past (hlt : maxRevision < rev) (script : Script Msg Dec Clr Attr Val)
    (uncommitted : Bool) : linesAt maxRevision (path values data script rev uncommitted) = [] := by
  rw [linesAt, List.filter_eq_nil_iff.mpr fun line hline => ?_]
  · rfl
  · have hle := le_of_mem_path hline
    simp only [decide_eq_true_eq]
    omega

theorem outs_events (script : Script Msg Dec Clr Attr Val) (uncommitted : Bool)
    (hle : rev ≤ maxRevision) : outs (events values data maxRevision script rev uncommitted)
      = linesAt maxRevision (path values data script rev uncommitted) := by
  induction script generalizing rev uncommitted with
  | log msg next ih =>
      rw [events, path, linesAt]
      by_cases hrev : rev = maxRevision
      · rw [if_pos hrev, outs, ih uncommitted hle, List.filter_cons_of_pos (by simpa using hrev)]
        rfl
      · rw [if_neg hrev, ih uncommitted hle, List.filter_cons_of_neg (by simpa using hrev)]
        rfl
  | ext args next ih => exact ih _ uncommitted hle
  | commit next ih =>
      rw [events, path]
      split_ifs with hrev
      · exact (linesAt_past (by omega) next false).symm
      · exact ih false (by omega)
  | declare declaration next ih => exact ih true hle
  | clear entry next ih => exact ih true hle
  | read attr next ih =>
      rw [events, path]
      split_ifs with hu hrev
      · exact (linesAt_past (by omega) _ false).symm
      · exact ih _ false (by omega)
      · exact ih _ false hle
  | done v => rfl

theorem le_outcome (script : Script Msg Dec Clr Attr Val) (rev : ℕ) (uncommitted : Bool) :
    rev ≤ (outcome values data script rev uncommitted).1 := by
  induction script generalizing rev uncommitted with
  | log msg next ih => exact ih rev uncommitted
  | ext args next ih => exact ih _ rev uncommitted
  | commit next ih => exact Nat.le_of_succ_le (ih (rev + 1) false)
  | declare declaration next ih => exact ih rev true
  | clear entry next ih => exact ih rev true
  | read attr next ih =>
      rw [outcome]
      split_ifs
      · exact Nat.le_of_succ_le (ih _ (rev + 1) false)
      · exact ih _ rev false
  | done v => exact Nat.le_refl rev

/-! ## One run -/

/-- How a run ends that no missing result stops. -/
def ending (maxRevision : ℕ) (outcome : ℕ × Val) : Status Val :=
  if outcome.1 ≤ maxRevision then .done outcome.2 else .commit

/-- A run is an attempt at the events of the path. -/
structure Attempted (values : Key → Val) (data : ℕ → Attr → Val) (maxRevision : ℕ)
    (cache : Cache Val) (script : Script Msg Dec Clr Attr Val) (s : State Msg Dec Clr)
    (a : Attempt Msg Key) (r : State Msg Dec Clr × Status Val) : Prop where
  logged : r.1.logged = s.logged ++ a.outs
  counter : r.1.extCounter = a.counter
  extensions : r.1.extensions = s.extensions ++ a.missing.toList
  status : r.2 = match a.missing with
    | some _ => .ext
    | none => ending maxRevision (outcome values data script s.revision s.uncommitted)

variable {cache : Cache Val}

theorem commit_last {s : State Msg Dec Clr} (h : s.revision = maxRevision) :
    @commit Msg Dec Clr Val maxRevision s = ({ s with
      revision := s.revision + 1, uncommitted := false,
      declarations := s.declarations.map fun d => (d.1, false) }, some .commit) :=
  if_pos (congrArg (· + 1) h)

theorem commit_before {s : State Msg Dec Clr} (h : s.revision < maxRevision) :
    @commit Msg Dec Clr Val maxRevision s
      = ({ s with revision := s.revision + 1, uncommitted := false }, none) := by
  have h1 : ¬ s.revision + 1 = maxRevision + 1 := by omega
  have h2 : ¬ maxRevision + 1 < s.revision + 1 := by omega
  exact (if_neg h1).trans (if_neg h2)

/-- A run that commits the last revision has come to the end of its events. -/
theorem attempted_commit {script : Script Msg Dec Clr Attr Val} {s : State Msg Dec Clr}
    (hrev : s.revision = maxRevision)
    (houtcome : s.revision + 1 ≤ (outcome values data script s.revision s.uncommitted).1) :
    Attempted values data maxRevision cache script s ⟨[], s.extCounter, none⟩
      ({ s with
        revision := s.revision + 1, uncommitted := false,
        declarations := s.declarations.map fun d => (d.1, false) }, .commit) := by
  refine ⟨(List.append_nil _).symm, rfl, (List.append_nil _).symm, ?_⟩
  exact (if_neg (by omega)).symm

theorem runInContext_spec (hcache : ∀ k v, cache k = some v → values k = v)
    (script : Script Msg Dec Clr Attr Val) (s : State Msg Dec Clr)
    (hle : s.revision ≤ maxRevision) :
    Attempted values data maxRevision cache script s
      (attempt (fun k => (cache k).isSome)
        (events values data maxRevision script s.revision s.uncommitted) s.extCounter)
      (runInContext data maxRevision cache script s) := by
  induction script generalizing s with
  | log msg next ih =>
      rw [runInContext, events]
      by_cases hrev : s.revision = maxRevision
      · rw [if_pos hrev, attempt]
        by_cases hc : 0 ≤ s.extCounter
        · have h := ih { s with logged := s.logged ++ [msg] } hle
          rw [if_pos hc, if_pos (And.intro hrev hc)]
          exact ⟨h.logged.trans (List.append_assoc ..), h.counter, h.extensions, h.status⟩
        · have h := ih s hle
          have hlog : ¬ (s.revision = maxRevision ∧ 0 ≤ s.extCounter) := fun hlog => hc hlog.2
          rw [if_neg hlog, if_neg hc]
          exact ⟨h.logged, h.counter, h.extensions, h.status⟩
      · have h := ih s hle
        have hlog : ¬ (s.revision = maxRevision ∧ 0 ≤ s.extCounter) := fun hlog => hrev hlog.1
        rw [if_neg hrev, if_neg hlog]
        exact ⟨h.logged, h.counter, h.extensions, h.status⟩
  | ext args next ih =>
      rw [runInContext, events, attempt]
      cases hv : cache ⟨s.revision, args⟩ with
      | none => exact ⟨(List.append_nil _).symm, rfl, rfl, rfl⟩
      | some v =>
          obtain rfl := hcache _ v hv
          have h := ih (values ⟨s.revision, args⟩) { s with extCounter := s.extCounter + 1 } hle
          exact ⟨h.logged, h.counter, h.extensions, h.status⟩
  | commit next ih =>
      rw [runInContext, events]
      by_cases hrev : s.revision = maxRevision
      · rw [commit_last hrev, if_pos hrev]
        exact attempted_commit hrev (le_outcome next (s.revision + 1) false)
      · have hlt : s.revision < maxRevision := lt_of_le_of_ne hle hrev
        have h := ih { s with revision := s.revision + 1, uncommitted := false } hlt
        rw [commit_before hlt, if_neg hrev]
        exact ⟨h.logged, h.counter, h.extensions, h.status⟩
  | declare declaration next ih =>
      have h := ih { s with
        uncommitted := true, declarations := s.declarations ++ [(declaration, true)] } hle
      exact ⟨h.logged, h.counter, h.extensions, h.status⟩
  | clear entry next ih =>
      have h := ih { s with
        uncommitted := true,
        clear := if s.revision = maxRevision then s.clear ++ [entry] else s.clear } hle
      exact ⟨h.logged, h.counter, h.extensions, h.status⟩
  | read attr next ih =>
      rw [runInContext, events]
      by_cases hu : s.uncommitted = true
      · rw [if_pos hu, if_pos hu]
        by_cases hrev : s.revision = maxRevision
        · rw [commit_last hrev, if_pos hrev]
          refine attempted_commit hrev ?_
          rw [outcome, if_pos hu]
          exact le_outcome _ (s.revision + 1) false
        · have hlt : s.revision < maxRevision := lt_of_le_of_ne hle hrev
          have h := ih (data (s.revision + 1) attr)
            { s with revision := s.revision + 1, uncommitted := false } hlt
          rw [commit_before hlt, if_neg hrev]
          refine ⟨h.logged, h.counter, h.extensions, h.status.trans ?_⟩
          rw [outcome, if_pos hu]
      · have h := ih (data s.revision attr) s hle
        rw [if_neg hu, if_neg hu]
        have hfalse : s.uncommitted = false := Bool.eq_false_iff.mpr hu
        rw [hfalse] at h
        refine ⟨h.logged, h.counter, h.extensions, h.status.trans ?_⟩
        rw [outcome, if_neg hu, hfalse]
  | done v =>
      refine ⟨(List.append_nil _).symm, rfl, (List.append_nil _).symm, ?_⟩
      exact (if_pos hle).symm

/-! ## The runs until no result is missing -/

/-- The results that calls of `ext` have: those in the cache, and the answers. -/
def resolved (answer : Key → Val) (cache : Cache Val) (key : Key) : Val :=
  (cache key).getD (answer key)

variable {answer : Key → Val} {script : Script Msg Dec Clr Attr Val} {startRevision : ℕ}

theorem resolved_cached {k : Key} {v : Val} (h : cache k = some v) :
    resolved answer cache k = v := by
  rw [resolved, h, Option.getD_some]

theorem resolved_run (answer : Key → Val) {k : Key} (h : cache k = none) :
    resolved answer (runExtensions answer cache [k]) = resolved answer cache := by
  funext k'
  rw [runExtensions, List.foldl_cons, List.foldl_nil, resolved, resolved]
  by_cases hk : k' = k
  · rw [hk, Function.update_self, h]
    rfl
  · rw [Function.update_of_ne hk]

theorem isSome_run (answer : Key → Val) (cache : Cache Val) (k : Key) :
    (fun k' => (runExtensions answer cache [k] k').isSome)
      = Function.update (fun k' => (cache k').isSome) k true := by
  funext k'
  rw [runExtensions, List.foldl_cons, List.foldl_nil]
  by_cases hk : k' = k
  · rw [hk, Function.update_self, Function.update_self]
    rfl
  · rw [Function.update_of_ne hk, Function.update_of_ne hk]

/-- The result of the last of the runs up to a revision. -/
structure RunResult (maxRevision : ℕ) (outcome : ℕ × Val) (logged : List Msg)
    (r : ScriptResult Msg Dec Clr Val) : Prop where
  fault : r.fault = false
  done : r.done = decide (outcome.1 ≤ maxRevision)
  returnValue : r.returnValue = if outcome.1 ≤ maxRevision then some outcome.2 else none
  logged : r.logged = logged

/-- The runs up to a revision are the replays of its events. -/
theorem run_replay (hle : startRevision ≤ maxRevision) {fuel : ℕ} {c : ℤ} {lines : List Msg}
    {known : Key → Bool}
    (h : replay (events (resolved answer cache) data maxRevision script startRevision false) fuel
      (fun k => (cache k).isSome) c = some (lines, known)) :
    ∃ r cache', run answer data script startRevision maxRevision fuel cache c = some (r, cache')
      ∧ resolved answer cache' = resolved answer cache
      ∧ RunResult maxRevision
        (outcome (resolved answer cache) data script startRevision false) lines r := by
  induction fuel generalizing cache c lines with
  | zero => exact nomatch h
  | succ fuel ih =>
      have hcache : ∀ k v, cache k = some v → resolved answer cache k = v :=
        fun _ _ => resolved_cached
      have hspec := @runInContext_spec Msg Dec Clr Attr Val _ data maxRevision cache hcache script
        { revision := startRevision, extCounter := c } hle
      have hunknown := @missing_unknown Msg Key (fun k => (cache k).isSome)
        (events (resolved answer cache) data maxRevision script startRevision false) c
      rw [replay] at h
      rw [run]
      simp only at hspec
      generalize attempt (fun k => (cache k).isSome)
        (events (resolved answer cache) data maxRevision script startRevision false) c = a
        at h hspec hunknown
      generalize runInContext data maxRevision cache script
        { revision := startRevision, extCounter := c } = r at hspec ⊢
      obtain ⟨s, status⟩ := r
      obtain ⟨outs, counter, missing⟩ := a
      obtain ⟨hlogged, hcounter, hextensions, hstatus⟩ := hspec
      simp only [List.nil_append] at hlogged hcounter hextensions hstatus
      cases missing with
      | none =>
          cases h
          simp only at hstatus
          subst hstatus
          unfold ending
          rw [Option.toList_none] at hextensions
          split_ifs with hend
          · simp only [hextensions]
            exact ⟨_, _, rfl, rfl, rfl, (decide_eq_true hend).symm, (if_pos hend).symm, hlogged⟩
          · simp only [hextensions]
            exact ⟨_, _, rfl, rfl, rfl, (decide_eq_false hend).symm, (if_neg hend).symm, hlogged⟩
      | some k =>
          have hk : cache k = none :=
            Option.isNone_iff_eq_none.mp (Option.isSome_eq_false_iff.mp (hunknown rfl))
          simp only at h hstatus
          subst hstatus
          obtain ⟨⟨lines', known'⟩, hrest, heq⟩ := Option.map_eq_some_iff.mp h
          cases heq
          rw [Option.toList_some] at hextensions
          rw [← isSome_run answer cache k, ← hcounter, ← resolved_run answer hk] at hrest
          obtain ⟨r, cache', hrun, hresolved, hresult⟩ := ih hrest
          rw [resolved_run answer hk] at hresolved hresult
          simp only [hextensions, hrun, Option.map_some]
          refine ⟨_, _, rfl, hresolved, hresult.fault, hresult.done, hresult.returnValue, ?_⟩
          rw [hlogged, hresult.logged]

/-- The runs up to a revision log the lines of this revision, whatever is cached before. -/
theorem run_logs (hle : startRevision ≤ maxRevision) {fuel : ℕ}
    (hfuel : extCalls (resolved answer cache) data script startRevision false < fuel) :
    ∃ r cache', run answer data script startRevision maxRevision fuel cache 0 = some (r, cache')
      ∧ resolved answer cache' = resolved answer cache
      ∧ RunResult maxRevision (outcome (resolved answer cache) data script startRevision false)
        (linesAt maxRevision (path (resolved answer cache) data script startRevision false)) r := by
  have hcalls := @calls_events Msg Dec Clr Attr Val (resolved answer cache) data maxRevision
    script startRevision false
  obtain ⟨known, hreplay, -, -⟩ := replay_outs (fun k => (cache k).isSome)
    (Nat.lt_of_le_of_lt hcalls hfuel)
  rw [outs_events script false hle] at hreplay
  exact run_replay hle hreplay

/-! ## The runs of a level -/

theorem path_sorted (script : Script Msg Dec Clr Attr Val) (rev : ℕ) (uncommitted : Bool) :
    (path values data script rev uncommitted).Pairwise fun a b => a.1 ≤ b.1 := by
  induction script generalizing rev uncommitted with
  | log msg next ih =>
      exact List.pairwise_cons.mpr ⟨fun _ hline => le_of_mem_path hline, ih rev uncommitted⟩
  | ext args next ih => exact ih _ rev uncommitted
  | commit next ih => exact ih (rev + 1) false
  | declare declaration next ih => exact ih rev true
  | clear entry next ih => exact ih rev true
  | read attr next ih =>
      rw [path]
      split_ifs
      · exact ih _ (rev + 1) false
      · exact ih _ rev false
  | done v => exact .nil

theorem path_le_outcome {script : Script Msg Dec Clr Attr Val} {uncommitted : Bool}
    {line : ℕ × Msg} (h : line ∈ path values data script rev uncommitted) :
    line.1 ≤ (outcome values data script rev uncommitted).1 := by
  induction script generalizing rev uncommitted with
  | log msg next ih =>
      rw [path] at h
      rcases List.mem_cons.mp h with rfl | h
      · exact le_outcome next rev uncommitted
      · exact ih h
  | ext args next ih => exact ih _ h
  | commit next ih => exact ih h
  | declare declaration next ih => exact ih h
  | clear entry next ih => exact ih h
  | read attr next ih =>
      rw [path] at h
      rw [outcome]
      split_ifs at h ⊢
      · exact ih _ h
      · exact ih _ h
  | done v => exact absurd h List.not_mem_nil

/-- The lines from a revision on. -/
def linesFrom (rev : ℕ) (lines : List (ℕ × Msg)) : List Msg :=
  (lines.filter fun line => rev ≤ line.1).map Prod.snd

theorem linesFrom_succ {lines : List (ℕ × Msg)} (h : lines.Pairwise fun a b => a.1 ≤ b.1)
    (rev : ℕ) : linesFrom rev lines = linesAt rev lines ++ linesFrom (rev + 1) lines := by
  induction lines with
  | nil => rfl
  | cons line lines ih =>
      obtain ⟨hline, hlines⟩ := List.pairwise_cons.mp h
      have ih := ih hlines
      unfold linesFrom linesAt at ih ⊢
      rcases lt_trichotomy line.1 rev with hlt | heq | hgt
      · rw [List.filter_cons_of_neg (by simpa using hlt), ih,
          List.filter_cons_of_neg (by simp; omega), List.filter_cons_of_neg (by simp; omega)]
      · rw [List.filter_cons_of_pos (by simp [heq]), List.map_cons, ih,
          List.filter_cons_of_pos (by simp [heq]), List.filter_cons_of_neg (by simp; omega)]
        rfl
      · have hnone : lines.filter (fun line => decide (line.1 = rev)) = [] := by
          refine List.filter_eq_nil_iff.mpr fun other hother => ?_
          have hle := hline other hother
          simp only [decide_eq_true_eq]
          omega
        rw [hnone] at ih
        rw [List.filter_cons_of_pos (by simp; omega), List.map_cons, ih,
          List.filter_cons_of_neg (by simp; omega), hnone,
          List.filter_cons_of_pos (by simp; omega)]
        rfl

theorem levelRuns_from {rounds fuel : ℕ} (hle : startRevision ≤ maxRevision)
    (hmax : maxRevision ≤ (outcome (resolved answer cache) data script startRevision false).1)
    (hrounds : (outcome (resolved answer cache) data script startRevision false).1
      < maxRevision + rounds)
    (hfuel : extCalls (resolved answer cache) data script startRevision false < fuel) :
    ∃ r, levelRuns answer data script startRevision fuel rounds maxRevision cache
        = some (linesFrom maxRevision
          (path (resolved answer cache) data script startRevision false), r)
      ∧ r.fault = false ∧ r.done = true
      ∧ r.returnValue
        = some (outcome (resolved answer cache) data script startRevision false).2 := by
  induction rounds generalizing maxRevision cache with
  | zero => omega
  | succ rounds ih =>
      obtain ⟨r, cache', hrun, hresolved, hresult⟩ :=
        @run_logs Msg Dec Clr Attr Val data maxRevision cache answer script startRevision hle
          fuel hfuel
      have hsorted := @path_sorted Msg Dec Clr Attr Val (resolved answer cache) data script
        startRevision false
      have hsucc := linesFrom_succ hsorted maxRevision
      rw [levelRuns, hrun]
      simp only [hresult.fault, hresult.done, Bool.false_eq_true, false_or, decide_eq_true_eq]
      by_cases hend : (outcome (resolved answer cache) data script startRevision false).1
          ≤ maxRevision
      · have hnone : linesFrom (maxRevision + 1)
            (path (resolved answer cache) data script startRevision false) = [] := by
          rw [linesFrom, List.filter_eq_nil_iff.mpr fun line hline => ?_]
          · rfl
          · have hline := path_le_outcome hline
            simp only [decide_eq_true_eq]
            omega
        rw [if_pos hend, hsucc, hnone, List.append_nil]
        refine ⟨r, ?_, hresult.fault, hresult.done.trans (decide_eq_true hend),
          hresult.returnValue.trans (if_pos hend)⟩
        rw [hresult.logged]
      · rw [if_neg hend]
        obtain ⟨r', hruns, hfault, hdone, hvalue⟩ := @ih (maxRevision + 1) cache'
          (Nat.le_succ_of_le hle) (by rw [hresolved]; omega) (by rw [hresolved]; omega)
          (by rw [hresolved]; exact hfuel)
        rw [hresolved] at hruns hvalue
        refine ⟨r', ?_, hfault, hdone, hvalue⟩
        rw [hruns, Option.map_some, hsucc, hresult.logged]

/-- Over all its runs a script logs each line on its path once, in order. -/
theorem levelRuns_logs (answer : Key → Val) (data : ℕ → Attr → Val)
    (script : Script Msg Dec Clr Attr Val) (startRevision : ℕ) (cache : Cache Val) :
    ∃ enough, ∀ k, ∃ r,
      levelRuns answer data script startRevision (enough + k) (enough + k) startRevision cache
        = some ((path (resolved answer cache) data script startRevision false).map Prod.snd, r)
      ∧ r.fault = false ∧ r.done = true
      ∧ r.returnValue
        = some (outcome (resolved answer cache) data script startRevision false).2 := by
  refine ⟨extCalls (resolved answer cache) data script startRevision false
    + (outcome (resolved answer cache) data script startRevision false).1 + 1, fun k => ?_⟩
  obtain ⟨r, hruns, hresult⟩ := @levelRuns_from Msg Dec Clr Attr Val data startRevision cache answer
    script startRevision
    (extCalls (resolved answer cache) data script startRevision false
      + (outcome (resolved answer cache) data script startRevision false).1 + 1 + k)
    (extCalls (resolved answer cache) data script startRevision false
      + (outcome (resolved answer cache) data script startRevision false).1 + 1 + k)
    (Nat.le_refl _) (le_outcome script startRevision false) (by omega) (by omega)
  refine ⟨r, ?_, hresult⟩
  rw [hruns, linesFrom, List.filter_eq_self.mpr]
  exact fun line hline => decide_eq_true (le_of_mem_path hline)

end Sandbox

end GenieAcs
