import Mathlib.Logic.Function.Basic
import GenieAcs.Lib.Transition
import GenieAcs.Like

/-!
# The local cache

`lib/local-cache.ts`: a process keeps snapshots of shared data and looks every
few seconds whether the shared hash has changed. `nextRefresh` is the time of
the next look, and 0 while one is under way, so it is also what keeps two
calls from refreshing at once. A call is a sequence of steps from `await` to
`await`; any number of calls of `getRevision` and `refresh` are under way, and
what is awaited gives any result or throws.

Snapshots are compared by identity, so equal members of `Snapshot` are one
object.
-/

namespace GenieAcs

namespace LocalCache

def REFRESH : Nat := 5000
def EVICT_TIMEOUT : Nat := 120000

/-- Where a call of `refresh` stands. -/
inductive Place
  | idle
  /-- In `setTimeoutPromise(20)`, as another refresh is under way. -/
  | sleeping
  /-- At `get(this.cacheKey)`. -/
  | getting (now : Nat)
  /-- At `acquireLock`. -/
  | locking (now : Nat) (dbHash : Option JsString)
  /-- At `this.callback()`; the flag tells whether there is a lock token. -/
  | calling (now : Nat) (dbHash : Option JsString) (lockToken : Bool)
  /-- At `set(this.cacheKey, hash, 300)`. -/
  | setting (now : Nat)
  /-- At `releaseLock`. -/
  | releasing (now : Nat)
  /-- `refresh` has returned, or was not called. -/
  | refreshed

/-- The call has set the marker and not yet taken it back. -/
def Place.InProgress : Place → Prop
  | getting _ | locking _ _ | calling _ _ _ | setting _ | releasing _ => True
  | _ => False

/-- A call, of `getRevision` or of `refresh` itself. -/
structure Call where
  getRevision : Bool
  place : Place

/-- A snapshot to be evicted. -/
structure Timer (Snapshot : Type) where
  due : Nat
  revision : JsString
  snapshot : Option Snapshot

structure State (Snapshot : Type) where
  time : Nat
  nextRefresh : Nat
  currentRevision : Option JsString
  snapshots : JsString → Option Snapshot
  timers : List (Timer Snapshot)
  calls : Nat → Call

/-- What happens between two awaits. -/
inductive Event (Snapshot : Type)
  | getRevision (k : Nat)
  | refresh (k : Nat)
  | wake (k : Nat)
  | got (k : Nat) (dbHash : Option JsString)
  | locked (k : Nat) (lockToken : Bool)
  | called (k : Nat) (hash : JsString) (snapshot : Snapshot)
  | hashSet (k : Nat)
  | released (k : Nat)
  /-- What the call awaits throws, and so does the call. -/
  | throws (k : Nat)
  | returns (k : Nat)
  | evict (i : Nat)
  | tick (d : Nat)

variable {Snapshot : Type} [DecidableEq Snapshot]

/-- A string that is neither missing nor empty. -/
def truthy : Option JsString → Bool
  | some (_ :: _) => true
  | _ => false

namespace State

def hasRevision (s : State Snapshot) (revision : JsString) : Bool :=
  (s.snapshots revision).isSome

def setPlace (s : State Snapshot) (k : Nat) (place : Place) : State Snapshot :=
  { s with calls := Function.update s.calls k { s.calls k with place := place } }

def newCall (s : State Snapshot) (k : Nat) (getRevision : Bool) : State Snapshot :=
  { s with calls := Function.update s.calls k ⟨getRevision, .idle⟩ }

/-- `refresh` up to its first await. -/
def enter (s : State Snapshot) (k : Nat) : State Snapshot :=
  if s.nextRefresh = 0 then s.setPlace k .sleeping
  else if s.time < s.nextRefresh then s.setPlace k .refreshed
  else { s with nextRefresh := 0 }.setPlace k (.getting s.time)

/-- The end of `refresh`. -/
def finish (s : State Snapshot) (k now : Nat) : State Snapshot :=
  { s with nextRefresh := now + (REFRESH - now % REFRESH) }.setPlace k .refreshed

/-- `refresh` after the callback has returned. -/
def install (s : State Snapshot) (hash : JsString) (snapshot : Snapshot) : State Snapshot :=
  let timers := match s.currentRevision with
    | some (c :: r) => s.timers ++ [⟨s.time + EVICT_TIMEOUT, c :: r, s.snapshots (c :: r)⟩]
    | _ => s.timers
  { s with
    timers := timers
    currentRevision := some hash
    snapshots := Function.update s.snapshots hash (some snapshot) }

/-- What `getRevision` returns to a call that comes back from `refresh`. -/
def result (s : State Snapshot) (k : Nat) : Option (Option JsString) :=
  match s.calls k with
  | ⟨true, .refreshed⟩ => some s.currentRevision
  | _ => none

end State

def step (s : State Snapshot) : Event Snapshot → Option (State Snapshot)
  | .getRevision k =>
      match (s.calls k).place with
      | .idle =>
          let s := s.newCall k true
          some (if s.nextRefresh < s.time then s.enter k else s.setPlace k .refreshed)
      | _ => none
  | .refresh k =>
      match (s.calls k).place with
      | .idle => some ((s.newCall k false).enter k)
      | _ => none
  | .wake k =>
      match (s.calls k).place with
      | .sleeping => some (s.enter k)
      | _ => none
  | .got k dbHash =>
      match (s.calls k).place with
      | .getting now =>
          some (if truthy s.currentRevision ∧ dbHash = s.currentRevision then s.finish k now
            else s.setPlace k (.locking now dbHash))
      | _ => none
  | .locked k lockToken =>
      match (s.calls k).place with
      | .locking now dbHash => some (s.setPlace k (.calling now dbHash lockToken))
      | _ => none
  | .called k hash snapshot =>
      match (s.calls k).place with
      | .calling now dbHash lockToken =>
          let s := s.install hash snapshot
          some (if !lockToken then s.finish k now
            else if some hash ≠ dbHash then s.setPlace k (.setting now)
            else s.setPlace k (.releasing now))
      | _ => none
  | .hashSet k =>
      match (s.calls k).place with
      | .setting now => some (s.setPlace k (.releasing now))
      | _ => none
  | .released k =>
      match (s.calls k).place with
      | .releasing now => some (s.finish k now)
      | _ => none
  | .throws k =>
      match (s.calls k).place with
      | .getting _ | .locking _ _ | .calling _ _ _ | .setting _ | .releasing _ =>
          some (s.setPlace k .idle)
      | _ => none
  | .returns k =>
      match (s.calls k).place with
      | .refreshed => some (s.setPlace k .idle)
      | _ => none
  | .evict i =>
      match s.timers[i]? with
      | some t =>
          if t.due ≤ s.time then
            some { s with
              timers := s.timers.eraseIdx i
              snapshots := if s.snapshots t.revision = t.snapshot then
                Function.update s.snapshots t.revision none else s.snapshots }
          else none
      | none => none
  | .tick d => some { s with time := s.time + d }

/-- A new cache. -/
def State.Init (s : State Snapshot) : Prop :=
  s.nextRefresh = 1 ∧ s.currentRevision = none ∧ (∀ r, s.snapshots r = none) ∧ s.timers = []
    ∧ ∀ k, (s.calls k).place = .idle

/-- A step of a kind that `P` admits. -/
def Next (P : State Snapshot → Event Snapshot → Prop) (s s' : State Snapshot) : Prop :=
  ∃ e, P s e ∧ step s e = some s'

/-! ## Who is refreshing -/

/-- Call `k` is refreshing. -/
def State.Busy (s : State Snapshot) (k : Nat) : Prop := (s.calls k).place.InProgress

section

variable {s s' : State Snapshot} {e : Event Snapshot} {k : Nat}

omit [DecidableEq Snapshot] in
theorem place_setPlace (s : State Snapshot) (k : Nat) (place : Place) :
    ((s.setPlace k place).calls k).place = place := by
  simp [State.setPlace]

omit [DecidableEq Snapshot] in
theorem busy_setPlace {place : Place} {k' : Nat} :
    (s.setPlace k place).Busy k' ↔ if k' = k then place.InProgress else s.Busy k' := by
  unfold State.Busy State.setPlace
  split_ifs with h
  · subst h
    simp
  · simp [h]

omit [DecidableEq Snapshot] in
/-- A call that moves from one place to another of the same kind. -/
theorem busy_moves {place : Place} (h : place.InProgress ↔ s.Busy k) (k' : Nat) :
    (s.setPlace k place).Busy k' ↔ s.Busy k' := by
  rw [busy_setPlace]
  split_ifs with hk
  · subst hk
    exact h
  · rfl

/-- What a step does to the marker and to the calls that are refreshing. -/
inductive Progress (s : State Snapshot) (e : Event Snapshot) (s' : State Snapshot) : Prop
  | quiet (hnext : s'.nextRefresh = s.nextRefresh) (hbusy : ∀ k, s'.Busy k ↔ s.Busy k)
  | begins (k : Nat) (hfree : s.nextRefresh ≠ 0) (hnext : s'.nextRefresh = 0)
      (hbusy : ∀ k', s'.Busy k' ↔ k' = k ∨ s.Busy k')
  | ends (k : Nat) (hk : s.Busy k) (hnext : s'.nextRefresh ≠ 0)
      (hbusy : ∀ k', s'.Busy k' ↔ k' ≠ k ∧ s.Busy k')
  | fails (k : Nat) (he : e = .throws k) (hk : s.Busy k) (hnext : s'.nextRefresh = s.nextRefresh)
      (hbusy : ∀ k', s'.Busy k' ↔ k' ≠ k ∧ s.Busy k')

omit [DecidableEq Snapshot] in
theorem progress_moves {place : Place} (h : place.InProgress ↔ s.Busy k) :
    Progress s e (s.setPlace k place) :=
  .quiet rfl (busy_moves h)

omit [DecidableEq Snapshot] in
theorem progress_enter (hidle : ¬ s.Busy k) : Progress s e (s.enter k) := by
  unfold State.enter
  split_ifs with hzero hlater
  · exact progress_moves (iff_of_false id hidle)
  · exact progress_moves (iff_of_false id hidle)
  · refine .begins k hzero rfl fun k' => ?_
    rw [busy_setPlace]
    split_ifs with hk
    · exact iff_of_true trivial (.inl hk)
    · exact (or_iff_right hk).symm

omit [DecidableEq Snapshot] in
theorem progress_finish (hbusy : s.Busy k) (now : Nat) : Progress s e (s.finish k now) := by
  refine .ends k hbusy ?_ fun k' => ?_
  · show now + (REFRESH - now % REFRESH) ≠ 0
    have : now % REFRESH < REFRESH := Nat.mod_lt _ (by decide)
    omega
  · unfold State.finish
    rw [busy_setPlace]
    split_ifs with hk
    · exact iff_of_false id fun h => h.1 hk
    · exact (and_iff_right hk).symm

omit [DecidableEq Snapshot] in
/-- A new call, at first idle. -/
theorem busy_newCall {revision : Bool} (hidle : (s.calls k).place = .idle) (k' : Nat) :
    (s.newCall k revision).Busy k' ↔ s.Busy k' := by
  unfold State.Busy State.newCall
  by_cases hk : k' = k
  · subst hk
    simp [hidle]
  · simp [hk]

omit [DecidableEq Snapshot] in
theorem Progress.of_same {t : State Snapshot} (hnext : t.nextRefresh = s.nextRefresh)
    (hbusy : ∀ k, t.Busy k ↔ s.Busy k) (h : Progress t e s') : Progress s e s' := by
  cases h with
  | quiet h1 h2 => exact .quiet (h1.trans hnext) fun k => (h2 k).trans (hbusy k)
  | begins k hfree h1 h2 =>
      exact .begins k (hnext ▸ hfree) h1 fun k' => (h2 k').trans (or_congr_right (hbusy k'))
  | ends k hk h1 h2 =>
      exact .ends k ((hbusy k).mp hk) h1 fun k' => (h2 k').trans (and_congr_right fun _ => hbusy k')
  | fails k he hk h1 h2 =>
      exact .fails k he ((hbusy k).mp hk) (h1.trans hnext)
        fun k' => (h2 k').trans (and_congr_right fun _ => hbusy k')

/-- An eviction takes its timer off, and its snapshot if that is still there. -/
theorem evict_cases {i : Nat} (h : step s (.evict i) = some s') :
    ∃ t ∈ s.timers, s' = { s with
      timers := s.timers.eraseIdx i
      snapshots := if s.snapshots t.revision = t.snapshot then
        Function.update s.snapshots t.revision none else s.snapshots } := by
  simp only [step] at h
  cases hi : s.timers[i]? with
  | none =>
      rw [hi] at h
      cases h
  | some t =>
      rw [hi] at h
      dsimp only at h
      by_cases hdue : t.due ≤ s.time
      · rw [if_pos hdue] at h
        exact ⟨t, List.mem_of_getElem? hi, (Option.some.inj h).symm⟩
      · rw [if_neg hdue] at h
        cases h

theorem step_progress (h : step s e = some s') : Progress s e s' := by
  cases e with
  | getRevision k =>
      cases hp : (s.calls k).place <;> simp only [step, hp, Option.some.injEq, reduceCtorEq] at h
      subst h
      refine Progress.of_same (t := s.newCall k true) rfl (busy_newCall hp) ?_
      have hidle : ¬ (s.newCall k true).Busy k := by
        rw [busy_newCall hp, State.Busy, hp]
        exact id
      split_ifs
      · exact progress_enter hidle
      · exact progress_moves (iff_of_false id hidle)
  | refresh k =>
      cases hp : (s.calls k).place <;> simp only [step, hp, Option.some.injEq, reduceCtorEq] at h
      subst h
      refine Progress.of_same (t := s.newCall k false) rfl (busy_newCall hp) (progress_enter ?_)
      rw [busy_newCall hp, State.Busy, hp]
      exact id
  | wake k =>
      cases hp : (s.calls k).place <;> simp only [step, hp, Option.some.injEq, reduceCtorEq] at h
      subst h
      refine progress_enter ?_
      rw [State.Busy, hp]
      exact id
  | got k dbHash =>
      cases hp : (s.calls k).place <;> simp only [step, hp, Option.some.injEq, reduceCtorEq] at h
      have hbusy : s.Busy k := by
        rw [State.Busy, hp]
        trivial
      subst h
      split_ifs
      · exact progress_finish hbusy _
      · exact progress_moves (iff_of_true trivial hbusy)
  | locked k lockToken =>
      cases hp : (s.calls k).place <;> simp only [step, hp, Option.some.injEq, reduceCtorEq] at h
      subst h
      refine progress_moves (iff_of_true trivial ?_)
      rw [State.Busy, hp]
      trivial
  | called k hash snapshot =>
      cases hp : (s.calls k).place <;> simp only [step, hp, Option.some.injEq, reduceCtorEq] at h
      have hbusy : (s.install hash snapshot).Busy k := by
        show ((s.calls k).place).InProgress
        rw [hp]
        trivial
      subst h
      refine Progress.of_same (t := s.install hash snapshot) rfl (fun _ => Iff.rfl) ?_
      split_ifs
      · exact progress_finish hbusy _
      · exact progress_moves (iff_of_true trivial hbusy)
      · exact progress_moves (iff_of_true trivial hbusy)
  | hashSet k =>
      cases hp : (s.calls k).place <;> simp only [step, hp, Option.some.injEq, reduceCtorEq] at h
      subst h
      refine progress_moves (iff_of_true trivial ?_)
      rw [State.Busy, hp]
      trivial
  | released k =>
      cases hp : (s.calls k).place <;> simp only [step, hp, Option.some.injEq, reduceCtorEq] at h
      subst h
      refine progress_finish ?_ _
      rw [State.Busy, hp]
      trivial
  | throws k =>
      have hfails : ∀ place : Place, (s.calls k).place = place → place.InProgress →
          Progress s (.throws k) (s.setPlace k .idle) := by
        intro place hp hplace
        refine .fails k rfl (by rwa [State.Busy, hp]) rfl fun k' => ?_
        rw [busy_setPlace]
        split_ifs with hk
        · exact iff_of_false id fun h => h.1 hk
        · exact (and_iff_right hk).symm
      cases hp : (s.calls k).place <;> simp only [step, hp, Option.some.injEq, reduceCtorEq] at h
      all_goals
        subst h
        exact hfails _ hp trivial
  | returns k =>
      cases hp : (s.calls k).place <;> simp only [step, hp, Option.some.injEq, reduceCtorEq] at h
      subst h
      refine progress_moves (iff_of_false id ?_)
      rw [State.Busy, hp]
      exact id
  | evict i =>
      obtain ⟨t, ht, rfl⟩ := evict_cases h
      exact .quiet rfl fun _ => Iff.rfl
  | tick d =>
      cases h
      exact .quiet rfl fun _ => Iff.rfl

/-! ## The current snapshot -/

/-- What a step does to the snapshots, apart from evictions. -/
inductive Contents (s : State Snapshot) (e : Event Snapshot) (s' : State Snapshot) : Prop
  | quiet (hcurrent : s'.currentRevision = s.currentRevision)
      (hsnapshots : s'.snapshots = s.snapshots) (htimers : s'.timers = s.timers)
  | installs (k : Nat) (hash : JsString) (snapshot : Snapshot) (he : e = .called k hash snapshot)
      (hcurrent : s'.currentRevision = (s.install hash snapshot).currentRevision)
      (hsnapshots : s'.snapshots = (s.install hash snapshot).snapshots)
      (htimers : s'.timers = (s.install hash snapshot).timers)
  | evicts (t : Timer Snapshot) (ht : t ∈ s.timers)
      (hcurrent : s'.currentRevision = s.currentRevision)
      (hsnapshots : s'.snapshots = if s.snapshots t.revision = t.snapshot then
        Function.update s.snapshots t.revision none else s.snapshots)
      (htimers : s'.timers ⊆ s.timers)

omit [DecidableEq Snapshot] in
theorem enter_contents (s : State Snapshot) (k : Nat) :
    (s.enter k).currentRevision = s.currentRevision ∧ (s.enter k).snapshots = s.snapshots
      ∧ (s.enter k).timers = s.timers := by
  unfold State.enter
  split_ifs <;> exact ⟨rfl, rfl, rfl⟩

theorem step_contents (h : step s e = some s') : Contents s e s' := by
  cases e with
  | evict i =>
      obtain ⟨t, ht, rfl⟩ := evict_cases h
      exact .evicts t ht rfl rfl (List.eraseIdx_subset ..)
  | called k hash snapshot =>
      cases hp : (s.calls k).place <;> simp only [step, hp, Option.some.injEq, reduceCtorEq] at h
      subst h
      split_ifs <;> exact .installs k hash snapshot rfl rfl rfl rfl
  | getRevision k =>
      cases hp : (s.calls k).place <;> simp only [step, hp, Option.some.injEq, reduceCtorEq] at h
      subst h
      split_ifs
      · obtain ⟨h1, h2, h3⟩ := enter_contents (s.newCall k true) k
        exact .quiet h1 h2 h3
      · exact .quiet rfl rfl rfl
  | refresh k =>
      cases hp : (s.calls k).place <;> simp only [step, hp, Option.some.injEq, reduceCtorEq] at h
      subst h
      obtain ⟨h1, h2, h3⟩ := enter_contents (s.newCall k false) k
      exact .quiet h1 h2 h3
  | wake k =>
      cases hp : (s.calls k).place <;> simp only [step, hp, Option.some.injEq, reduceCtorEq] at h
      subst h
      obtain ⟨h1, h2, h3⟩ := enter_contents s k
      exact .quiet h1 h2 h3
  | got k dbHash =>
      cases hp : (s.calls k).place <;> simp only [step, hp, Option.some.injEq, reduceCtorEq] at h
      subst h
      split_ifs <;> exact .quiet rfl rfl rfl
  | locked k _ | hashSet k | released k | throws k | returns k =>
      cases hp : (s.calls k).place <;> simp only [step, hp, Option.some.injEq, reduceCtorEq] at h
      all_goals
        subst h
        exact .quiet rfl rfl rfl
  | tick d =>
      cases h
      exact .quiet rfl rfl rfl

/-! ## Runs -/

/-- One call at most is refreshing, and the marker says so. -/
structure State.Marked (s : State Snapshot) : Prop where
  unique : ∀ k k', s.Busy k → s.Busy k' → k = k'
  marker : ∀ k, s.Busy k → s.nextRefresh = 0

omit [DecidableEq Snapshot] in
theorem State.Marked.progress (h : s.Marked) (hp : Progress s e s') : s'.Marked := by
  cases hp with
  | quiet hnext hbusy =>
      exact ⟨fun k k' hk hk' => h.unique k k' ((hbusy k).mp hk) ((hbusy k').mp hk'),
        fun k hk => hnext.trans (h.marker k ((hbusy k).mp hk))⟩
  | begins k hfree hnext hbusy =>
      have honly : ∀ k', s'.Busy k' → k' = k := by
        intro k' hk'
        refine ((hbusy k').mp hk').resolve_right fun hold => ?_
        exact hfree (h.marker k' hold)
      exact ⟨fun k₁ k₂ h₁ h₂ => (honly k₁ h₁).trans (honly k₂ h₂).symm, fun _ _ => hnext⟩
  | ends k hk hnext hbusy | fails k he hk hnext hbusy =>
      -- the only call that was refreshing has stopped
      have hnone : ∀ k', ¬ s'.Busy k' := by
        intro k' hk'
        obtain ⟨hne, hold⟩ := (hbusy k').mp hk'
        exact hne (h.unique k' k hold hk)
      exact ⟨fun k₁ k₂ h₁ => absurd h₁ (hnone k₁), fun k' hk' => absurd hk' (hnone k')⟩

omit [DecidableEq Snapshot] in
theorem init_idle (h : s.Init) (k : Nat) : ¬ s.Busy k := by
  rw [State.Busy, h.2.2.2.2 k]
  exact id

theorem reachable_marked {P : State Snapshot → Event Snapshot → Prop}
    (h : Reachable State.Init (Next P) s) : s.Marked :=
  h.invariant
    (fun _ hinit => ⟨fun k _ hk => absurd hk (init_idle hinit k),
      fun k hk => absurd hk (init_idle hinit k)⟩)
    fun _ _ hm ⟨_, _, hstep⟩ => hm.progress (step_progress hstep)

/-- Nothing that is awaited throws, and the callback does not return an object
that it has returned for that hash while it still counts: one that is current,
or that waits for its eviction. -/
def Orderly (s : State Snapshot) : Event Snapshot → Prop
  | .throws _ => False
  | .called _ hash snapshot =>
      (∀ t ∈ s.timers, ¬ (t.revision = hash ∧ t.snapshot = some snapshot))
        ∧ ¬ (s.currentRevision = some hash ∧ s.snapshots hash = some snapshot)
  | _ => True

/-- The marker is there because some call is refreshing. -/
def State.Attended (s : State Snapshot) : Prop := s.nextRefresh = 0 → ∃ k, s.Busy k

omit [DecidableEq Snapshot] in
theorem State.Attended.progress (h : s.Attended) (hok : Orderly s e) (hp : Progress s e s') :
    s'.Attended := by
  cases hp with
  | quiet hnext hbusy =>
      intro hzero
      obtain ⟨k, hk⟩ := h (hnext.symm.trans hzero)
      exact ⟨k, (hbusy k).mpr hk⟩
  | begins k hfree hnext hbusy => exact fun _ => ⟨k, (hbusy k).mpr (.inl rfl)⟩
  | ends k hk hnext hbusy => exact fun hzero => absurd hzero hnext
  | fails k he hk hnext hbusy =>
      subst he
      exact hok.elim

theorem reachable_attended (h : Reachable State.Init (Next Orderly) s) : s.Attended :=
  h.invariant
    (fun _ hinit hzero => absurd (hinit.1.symm.trans hzero) (by decide))
    fun _ _ ha ⟨_, hok, hstep⟩ => ha.progress hok (step_progress hstep)

/-- The current revision has a snapshot that no timer is after. -/
def State.Current (s : State Snapshot) : Prop :=
  ∀ r, s.currentRevision = some r → ∃ snapshot, s.snapshots r = some snapshot ∧
    ∀ t ∈ s.timers, ¬ (t.revision = r ∧ t.snapshot = some snapshot)

omit [DecidableEq Snapshot] in
/-- The timer set for the snapshot that is replaced. -/
theorem mem_install_timers {hash : JsString} {snapshot : Snapshot} {t : Timer Snapshot}
    (h : t ∈ (s.install hash snapshot).timers) :
    t ∈ s.timers
      ∨ s.currentRevision = some t.revision ∧ t.snapshot = s.snapshots t.revision := by
  unfold State.install at h
  dsimp only at h
  split at h
  · rename_i c r hcurrent
    rcases List.mem_append.mp h with h | h
    · exact .inl h
    · obtain rfl := List.mem_singleton.mp h
      exact .inr ⟨hcurrent, rfl⟩
  · exact .inl h

theorem State.Current.contents (h : s.Current) (hok : Orderly s e) (hc : Contents s e s') :
    s'.Current := by
  cases hc with
  | quiet hcurrent hsnapshots htimers =>
      intro r hr
      rw [hsnapshots, htimers]
      exact h r (hcurrent.symm.trans hr)
  | installs k hash snapshot he hcurrent hsnapshots htimers =>
      subst he
      intro r hr
      obtain rfl : hash = r := Option.some.inj (hcurrent.symm.trans hr)
      refine ⟨snapshot, ?_, fun t ht => ?_⟩
      · rw [hsnapshots]
        exact Function.update_self ..
      · rw [htimers] at ht
        rcases mem_install_timers ht with ht | ⟨hold, hsnap⟩
        · exact hok.1 t ht
        · rintro ⟨rfl, hsame⟩
          exact hok.2 ⟨hold, hsnap.symm.trans hsame⟩
  | evicts t ht hcurrent hsnapshots htimers =>
      intro r hr
      obtain ⟨snapshot, hsnap, hsafe⟩ := h r (hcurrent.symm.trans hr)
      refine ⟨snapshot, ?_, fun t' ht' => hsafe t' (htimers ht')⟩
      rw [hsnapshots]
      split_ifs with hhit
      · have hne : r ≠ t.revision := by
          rintro rfl
          exact hsafe t ht ⟨rfl, hhit.symm.trans hsnap⟩
        rw [Function.update_of_ne hne, hsnap]
      · exact hsnap

theorem reachable_current (h : Reachable State.Init (Next Orderly) s) : s.Current :=
  h.invariant
    (fun _ hinit r hr => by
      rw [hinit.2.1] at hr
      cases hr)
    fun _ _ hc ⟨_, hok, hstep⟩ => hc.contents hok (step_contents hstep)

/-! ## Getting on -/

/-- A run of events. -/
def run (s : State Snapshot) : List (Event Snapshot) → Option (State Snapshot)
  | [] => some s
  | e :: es => (step s e).bind fun s => run s es

/-- If nothing throws, the marker can be taken back. -/
def State.Finishes (s : State Snapshot) : Prop :=
  ∃ es s', (∀ e ∈ es, ∀ k, e ≠ .throws k) ∧ run s es = some s' ∧ s'.nextRefresh ≠ 0

theorem State.Finishes.step (h : s'.Finishes) (he : ∀ k, e ≠ .throws k)
    (hstep : LocalCache.step s e = some s') : s.Finishes := by
  obtain ⟨es, t, hes, hrun, hnext⟩ := h
  refine ⟨e :: es, t, List.forall_mem_cons.mpr ⟨he, hes⟩, ?_, hnext⟩
  rw [run, hstep]
  exact hrun

theorem finish_finishes (s : State Snapshot) (k now : Nat) : (s.finish k now).Finishes := by
  refine ⟨[], _, fun e he => absurd he List.not_mem_nil, rfl, ?_⟩
  show now + (REFRESH - now % REFRESH) ≠ 0
  have : now % REFRESH < REFRESH := Nat.mod_lt _ (by decide)
  omega

theorem releasing_finishes {now : Nat} (h : (s.calls k).place = .releasing now) : s.Finishes :=
  (finish_finishes s k now).step (e := .released k) (fun _ he => nomatch he) (by simp [step, h])

theorem setting_finishes {now : Nat} (h : (s.calls k).place = .setting now) : s.Finishes :=
  (releasing_finishes (place_setPlace s k (.releasing now))).step (e := .hashSet k)
    (fun _ he => nomatch he) (by simp [step, h])

theorem calling_finishes {now : Nat} {dbHash : Option JsString} {lockToken : Bool}
    (hash : JsString) (snapshot : Snapshot)
    (h : (s.calls k).place = .calling now dbHash lockToken) : s.Finishes := by
  refine State.Finishes.step (e := .called k hash snapshot) ?_ (fun _ he => nomatch he)
    (by simp only [step, h]; rfl)
  split_ifs
  · exact finish_finishes _ k now
  · exact setting_finishes (place_setPlace _ k (.setting now))
  · exact releasing_finishes (place_setPlace _ k (.releasing now))

theorem locking_finishes {now : Nat} {dbHash : Option JsString} (hash : JsString)
    (snapshot : Snapshot) (h : (s.calls k).place = .locking now dbHash) : s.Finishes :=
  (calling_finishes hash snapshot (place_setPlace s k (.calling now dbHash false))).step
    (e := .locked k false) (fun _ he => nomatch he) (by simp [step, h])

/-- A call that is refreshing comes to its end once nothing throws. -/
theorem busy_finishes (hash : JsString) (snapshot : Snapshot) (hbusy : s.Busy k) : s.Finishes := by
  cases hp : (s.calls k).place with
  | getting now =>
      refine State.Finishes.step (e := .got k none) ?_ (fun _ he => nomatch he)
        (by simp only [step, hp]; rfl)
      split_ifs
      · exact finish_finishes s k now
      · exact locking_finishes hash snapshot (place_setPlace s k (.locking now none))
  | locking now dbHash => exact locking_finishes hash snapshot hp
  | calling now dbHash lockToken => exact calling_finishes hash snapshot hp
  | setting now => exact setting_finishes hp
  | releasing now => exact releasing_finishes hp
  | idle | sleeping | refreshed =>
      rw [State.Busy, hp] at hbusy
      exact hbusy.elim

/-- In every run in which nothing throws and the callback makes new objects:
the marker is only there while a call is refreshing, that call can take it
back, and what `getRevision` returns has its snapshot. -/
theorem getRevision_safe (h : Reachable State.Init (Next Orderly) s) :
    (s.nextRefresh = 0 → ∃ k, s.Busy k)
      ∧ (∀ k, s.Busy k → JsString → Snapshot → s.Finishes)
      ∧ ∀ k r, s.result k = some (some r) → s.hasRevision r = true := by
  refine ⟨reachable_attended h, fun k hk hash snapshot => busy_finishes hash snapshot hk, ?_⟩
  intro k r hr
  have hcurrent : s.currentRevision = some r := by
    unfold State.result at hr
    split at hr
    · exact Option.some.inj hr
    · cases hr
  obtain ⟨snapshot, hsnap, -⟩ := reachable_current h r hcurrent
  rw [State.hasRevision, hsnap]
  rfl

/-- Once the marker is there and no call is refreshing, it stays so for ever. -/
theorem wedged_forever {P : State Snapshot → Event Snapshot → Prop} (hzero : s.nextRefresh = 0)
    (hidle : ∀ k, ¬ s.Busy k) (h : Reachable (· = s) (Next P) s') :
    s'.nextRefresh = 0 ∧ ∀ k, ¬ s'.Busy k := by
  refine h.invariant (P := fun t => t.nextRefresh = 0 ∧ ∀ k, ¬ t.Busy k) ?_ ?_
  · rintro t rfl
    exact ⟨hzero, hidle⟩
  · rintro t t' ⟨hz, hi⟩ ⟨e, -, hstep⟩
    cases step_progress hstep with
    | quiet hnext hbusy => exact ⟨hnext.trans hz, fun k hk => hi k ((hbusy k).mp hk)⟩
    | begins k hfree => exact absurd hz hfree
    | ends k hk => exact absurd hk (hi k)
    | fails k he hk => exact absurd hk (hi k)

end

theorem reachable_run {P : State Snapshot → Event Snapshot → Prop} {es : List (Event Snapshot)}
    {s s' : State Snapshot} (hs : Reachable State.Init (Next P) s)
    (hP : ∀ s, ∀ e ∈ es, P s e) (h : run s es = some s') :
    Reachable State.Init (Next P) s' := by
  induction es generalizing s with
  | nil =>
      cases h
      exact hs
  | cons e es ih =>
      obtain ⟨t, ht, hrest⟩ := Option.bind_eq_some_iff.mp h
      exact ih (hs.step ⟨e, hP s e (List.mem_cons_self ..), ht⟩)
        (fun s e he => hP s e (List.mem_cons_of_mem _ he)) hrest

/-! ## Two runs -/

def start : State Nat where
  time := 5
  nextRefresh := 1
  currentRevision := none
  snapshots _ := none
  timers := []
  calls _ := ⟨false, .idle⟩

theorem start_init : start.Init := ⟨rfl, rfl, fun _ => rfl, rfl, fun _ => rfl⟩

/-- A first refresh that finds the lock taken. -/
def firstRefresh : List (Event Nat) := [.getRevision 0, .got 0 none, .locked 0 false]

theorem getRevision_safe_first :
    ∃ s : State Nat, s.result 0 = some (some (js "a"))
      ∧ (s.nextRefresh = 0 → ∃ k, s.Busy k)
      ∧ (∀ k, s.Busy k → JsString → Nat → s.Finishes)
      ∧ ∀ k r, s.result k = some (some r) → s.hasRevision r = true := by
  have hfirst : ∃ s, run start firstRefresh = some s ∧ s.timers = []
      ∧ s.currentRevision = none
      ∧ ∃ s', step s (.called 0 (js "a") 1) = some s' ∧ s'.result 0 = some (some (js "a")) :=
    ⟨_, rfl, rfl, rfl, _, rfl, rfl⟩
  obtain ⟨s, hrun, htimers, hcurrent, s', hstep, hresult⟩ := hfirst
  have hs : Reachable State.Init (Next Orderly) s := by
    refine reachable_run (.init start_init) (fun s e he => ?_) hrun
    simp only [firstRefresh, List.mem_cons, List.not_mem_nil, or_false] at he
    rcases he with rfl | rfl | rfl <;> trivial
  have hok : Orderly s (.called 0 (js "a") 1) := by
    refine ⟨fun t ht => ?_, fun hsame => ?_⟩
    · rw [htimers] at ht
      cases ht
    · rw [hcurrent] at hsame
      cases hsame.1
  exact ⟨s', hresult, getRevision_safe (hs.step ⟨_, hok, hstep⟩)⟩

/-- The shared hash cannot be read once, and no call ever refreshes again. -/
theorem getRevision_wedges :
    ∃ s : State Nat, run start [.getRevision 0, .throws 0] = some s
      ∧ Reachable State.Init (Next fun _ _ => True) s ∧ s.nextRefresh = 0 ∧ (∀ k, ¬ s.Busy k)
      ∧ ∀ s', Reachable (· = s) (Next fun _ _ => True) s' → s'.nextRefresh = 0 ∧ ∀ k, ¬ s'.Busy k := by
  have hthrown : ∃ s, run start [.getRevision 0, .throws 0] = some s ∧ s.nextRefresh = 0
      ∧ ∀ k, (s.calls k).place = .idle := by
    refine ⟨_, rfl, rfl, fun k => ?_⟩
    by_cases hk : k = 0
    · subst hk
      rfl
    · simp [State.setPlace, State.newCall, State.enter, start, hk]
  obtain ⟨s, hrun, hzero, hplace⟩ := hthrown
  have hidle : ∀ k, ¬ s.Busy k := by
    intro k
    rw [State.Busy, hplace k]
    exact id
  exact ⟨s, hrun, reachable_run (.init start_init) (fun _ _ _ => trivial) hrun, hzero, hidle,
    fun s' => wedged_forever hzero hidle⟩

end LocalCache

end GenieAcs
