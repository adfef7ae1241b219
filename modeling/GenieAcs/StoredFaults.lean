import GenieAcs.TaskRuns
import Mathlib.Data.List.Sort

/-!
# Faults and tasks between sessions

What `lib/cwmp/db.ts` keeps of a device from one session to the next, how
`listenerAsync` sets a session up from it, and what `endSession` writes back. A
device has one session at a time; tasks are added and removed at any time, and
their ids are never used again.
-/

namespace GenieAcs

/-- `MongoTypes.Fault`; neither `retryNow` nor `precondition` is stored. -/
structure StoredFault where
  code : String
  message : String
  timestamp : Nat
  provisions : List Provision
  retries : Option Nat
  expiry : Option Nat

/-- A task, and from when on it is due. -/
structure StoredTask where
  timestamp : Nat
  task : Task Provision

/-- The faults and tasks of a device, and the ids that tasks have had. -/
structure Store where
  faults : InsMap Channel StoredFault
  tasks : List StoredTask
  used : List String
  nodup : (tasks.map fun t => t.task.id).Nodup
  tasks_used : ∀ t ∈ tasks, t.task.id ∈ used

namespace Store

/-! ## Loading -/

/-- One element of the result of `getFaults`. -/
def loadFault (_ : Channel) (r : StoredFault) : Option (SessionFault Provision) :=
  some
    { code := r.code
      message := r.message
      timestamp := r.timestamp
      provisions := r.provisions
      expiry := r.expiry }

def getFaults (s : Store) : InsMap Channel (SessionFault Provision) := s.faults.filterMap loadFault

/-- The tasks in the order of their timestamps, up to the first that is not due. -/
def getDueTasks (s : Store) (timestamp : Nat) : List (Task Provision) :=
  ((s.tasks.insertionSort fun t u => t.timestamp ≤ u.timestamp).takeWhile
    fun t => t.timestamp < timestamp).map StoredTask.task

/-- One round of the loop over the faults. -/
def setupFault (s : SessionContext Provision) (e : Channel × StoredFault) :
    SessionContext Provision :=
  if e.2.expiry.any (s.timestamp ≤ ·) then
    -- Delete expired faults
    { s with faults := s.faults.erase e.1, faultsTouched := e.1 :: s.faultsTouched }
  else
    match e.2.retries with
    | some n => { s with retries := s.retries.set e.1 n }
    | none => s

/-- The context of a session that begins at `timestamp`. -/
def setup (s : Store) (timestamp : Nat) : SessionContext Provision :=
  s.faults.entries.foldl setupFault
    { timestamp, tasks := s.getDueTasks timestamp, faults := s.getFaults }

/-! ## Saving -/

/-- The document that `saveFault` puts in the place of the old one. -/
def savedFault (fault : SessionFault Provision) (retries : Option Nat) : StoredFault where
  code := fault.code
  message := fault.message
  timestamp := fault.timestamp
  provisions := fault.provisions
  retries := retries
  expiry := fault.expiry.filter (· ≠ 0)

def saveTouched (s : SessionContext Provision) (faults : InsMap Channel StoredFault) (k : Channel) :
    InsMap Channel StoredFault :=
  match s.faults.get? k with
  | some fault => faults.set k (savedFault fault (s.retries.get? k))
  | none => faults.erase k

/-- Some of the tasks, and other faults. -/
def keep (store : Store) (faults : InsMap Channel StoredFault) (p : StoredTask → Bool) : Store where
  faults := faults
  tasks := store.tasks.filter p
  used := store.used
  nodup := store.nodup.sublist (List.filter_sublist.map _)
  tasks_used t ht := store.tasks_used t (List.mem_of_mem_filter ht)

/-- `clearTasks` and the loop over `faultsTouched`. -/
def save (store : Store) (s : SessionContext Provision) : Store :=
  store.keep (s.faultsTouched.foldl (saveTouched s) store.faults) fun t => t.task.id ∉ s.doneTasks

/-! ## What a session is set up with -/

section

variable {s : SessionContext Provision} {c : Channel} {store : Store} {timestamp : Nat}

/-- The loop drops a fault once its expiry is not past. -/
def Stale (timestamp : Nat) (l : List (Channel × StoredFault)) (c : Channel) : Prop :=
  ∃ v, (c, v) ∈ l ∧ v.expiry.any (timestamp ≤ ·)

theorem stale_cons {e : Channel × StoredFault} {l : List (Channel × StoredFault)} :
    Stale timestamp (e :: l) c ↔
      (e.1 = c ∧ e.2.expiry.any (timestamp ≤ ·)) ∨ Stale timestamp l c := by
  constructor
  · rintro ⟨v, hmem, hv⟩
    rcases List.mem_cons.mp hmem with heq | hmem
    · rw [← heq]
      exact Or.inl ⟨rfl, hv⟩
    · exact Or.inr ⟨v, hmem, hv⟩
  · rintro (⟨rfl, hv⟩ | ⟨v, hmem, hv⟩)
    · exact ⟨e.2, List.mem_cons_self .., hv⟩
    · exact ⟨v, List.mem_cons_of_mem e hmem, hv⟩

theorem setupFault_same (e : Channel × StoredFault) :
    (setupFault s e).timestamp = s.timestamp ∧ (setupFault s e).tasks = s.tasks
      ∧ (setupFault s e).provisioning = s.provisioning ∧ (setupFault s e).doneTasks = s.doneTasks := by
  unfold setupFault
  split_ifs
  · exact ⟨rfl, rfl, rfl, rfl⟩
  · split <;> exact ⟨rfl, rfl, rfl, rfl⟩

theorem setupFaults_same (l : List (Channel × StoredFault)) :
    ∀ s, (l.foldl setupFault s).timestamp = s.timestamp ∧ (l.foldl setupFault s).tasks = s.tasks
      ∧ (l.foldl setupFault s).provisioning = s.provisioning
      ∧ (l.foldl setupFault s).doneTasks = s.doneTasks := by
  induction l with
  | nil => exact fun _ => ⟨rfl, rfl, rfl, rfl⟩
  | cons e l ih =>
      intro s
      obtain ⟨h1, h2, h3, h4⟩ := setupFault_same (s := s) e
      obtain ⟨k1, k2, k3, k4⟩ := ih (setupFault s e)
      exact ⟨k1.trans h1, k2.trans h2, k3.trans h3, k4.trans h4⟩

theorem setupFaults_of_stale {l : List (Channel × StoredFault)} :
    ∀ s, (Stale s.timestamp l c ∨ s.faults.get? c = none ∧ c ∈ s.faultsTouched) →
      (l.foldl setupFault s).faults.get? c = none ∧ c ∈ (l.foldl setupFault s).faultsTouched := by
  induction l with
  | nil =>
      rintro s (⟨v, hmem, -⟩ | h)
      · cases hmem
      · exact h
  | cons e l ih =>
      intro s h
      refine ih (setupFault s e) ?_
      rw [(setupFault_same e).1]
      by_cases hdrop : e.2.expiry.any (s.timestamp ≤ ·) = true
      · rw [setupFault, if_pos hdrop]
        dsimp only
        rw [InsMap.get?_erase]
        rw [stale_cons] at h
        rcases h with (⟨rfl, -⟩ | h) | ⟨hnone, htouched⟩
        · exact Or.inr ⟨if_pos rfl, List.mem_cons_self ..⟩
        · exact Or.inl h
        · refine Or.inr ⟨?_, List.mem_cons_of_mem _ htouched⟩
          rw [hnone, ite_self]
      · rw [stale_cons] at h
        rcases h with (⟨-, hv⟩ | h) | hrest
        · exact absurd hv hdrop
        · exact Or.inl h
        · right
          rw [setupFault, if_neg hdrop]
          split <;> exact hrest

theorem setupFaults_of_fresh {l : List (Channel × StoredFault)} :
    ∀ s, ¬ Stale s.timestamp l c →
      (l.foldl setupFault s).faults.get? c = s.faults.get? c := by
  induction l with
  | nil => exact fun _ _ => rfl
  | cons e l ih =>
      intro s h
      rw [stale_cons, not_or] at h
      obtain ⟨he, hl⟩ := h
      refine (ih (setupFault s e) ?_).trans ?_
      · rw [(setupFault_same e).1]
        exact hl
      · unfold setupFault
        split_ifs with hdrop
        · dsimp only
          rw [InsMap.get?_erase, if_neg]
          rintro rfl
          exact he ⟨rfl, hdrop⟩
        · split <;> rfl

theorem setupFaults_retries {l : List (Channel × StoredFault)} {v : StoredFault}
    (hnodup : (l.map Prod.fst).Nodup) (hv : ¬ v.expiry.any (s.timestamp ≤ ·)) (hmem : (c, v) ∈ l)
    (hnone : s.retries.get? c = none) : (l.foldl setupFault s).retries.get? c = v.retries := by
  have hother : ∀ (l : List (Channel × StoredFault)) (s : SessionContext Provision),
      c ∉ l.map Prod.fst → (l.foldl setupFault s).retries.get? c = s.retries.get? c := by
    intro l
    induction l with
    | nil => exact fun _ _ => rfl
    | cons e l ih =>
        intro s hc
        rw [List.map_cons, List.mem_cons, not_or] at hc
        refine (ih _ hc.2).trans ?_
        unfold setupFault
        split_ifs
        · rfl
        · split
          · exact InsMap.get?_set_of_ne _ hc.1 _
          · rfl
  obtain ⟨before, after, rfl⟩ := List.append_of_mem hmem
  rw [List.map_append, List.map_cons, List.nodup_append] at hnodup
  obtain ⟨-, hafter, hbefore⟩ := hnodup
  have hc : c ∉ before.map Prod.fst := fun h => hbefore c h c (List.mem_cons_self ..) rfl
  have hlater : ¬ v.expiry.any ((before.foldl setupFault s).timestamp ≤ ·) = true := by
    rw [(setupFaults_same before s).1]
    exact hv
  rw [List.foldl_append, List.foldl_cons, hother after _ (List.nodup_cons.mp hafter).1,
    setupFault, if_neg hlater]
  dsimp only
  cases v.retries with
  | some n => exact InsMap.get?_set_self ..
  | none => exact (hother before s hc).trans hnone

theorem getFaults_get? : store.getFaults.get? c = (store.faults.get? c).bind (loadFault c) :=
  InsMap.get?_filterMap _ _ _

/-- Not every fault that is left has waited for its expiry: the ones that have not are
dropped. -/
theorem setup_spec (timestamp : Nat) {v : StoredFault} (hv : store.faults.get? c = some v) :
    (v.expiry.any (timestamp ≤ ·) = true →
        (store.setup timestamp).faults.get? c = none ∧ c ∈ (store.setup timestamp).faultsTouched)
      ∧ (v.expiry.any (timestamp ≤ ·) = false →
        (store.setup timestamp).faults.get? c = loadFault c v
          ∧ (store.setup timestamp).retries.get? c = v.retries) := by
  have hmem := InsMap.get?_eq_some.mp hv
  constructor
  · intro hstale
    exact setupFaults_of_stale _ (Or.inl ⟨v, hmem, hstale⟩)
  · intro hfresh
    have hno : ¬ v.expiry.any (timestamp ≤ ·) = true := by
      rw [hfresh]
      exact Bool.false_ne_true
    constructor
    · have hstale : ¬ Stale timestamp store.faults.entries c := by
        rintro ⟨w, hw, hany⟩
        obtain rfl := Option.some.inj (hv.symm.trans (InsMap.get?_eq_some.mpr hw))
        exact hno hany
      refine (setupFaults_of_fresh _ hstale).trans ?_
      dsimp only
      rw [getFaults_get?, hv, Option.bind_some]
    · exact setupFaults_retries store.faults.nodup hno hmem rfl

/-- A fault that is left is as it was stored. -/
theorem setup_fault {f : SessionFault Provision}
    (hf : (store.setup timestamp).faults.get? c = some f) :
    ∃ v, store.faults.get? c = some v ∧ loadFault c v = some f := by
  cases hv : store.faults.get? c with
  | none =>
      have hno : ¬ Stale timestamp store.faults.entries c := by
        rintro ⟨w, hw, -⟩
        rw [InsMap.get?_eq_some.mpr hw] at hv
        cases hv
      have hsame := setupFaults_of_fresh
        { timestamp, tasks := store.getDueTasks timestamp, faults := store.getFaults } hno
      rw [setup, hsame, getFaults_get?, hv] at hf
      cases hf
  | some v =>
      refine ⟨v, rfl, ?_⟩
      obtain ⟨hstale, hfresh⟩ := setup_spec timestamp hv
      cases hany : v.expiry.any (timestamp ≤ ·) with
      | true =>
          rw [(hstale hany).1] at hf
          cases hf
      | false => rw [← (hfresh hany).1, hf]

theorem setup_same (store : Store) (timestamp : Nat) :
    (store.setup timestamp).timestamp = timestamp
      ∧ (store.setup timestamp).tasks = store.getDueTasks timestamp
      ∧ (store.setup timestamp).provisioning = Provisioning.clearProvisions
      ∧ (store.setup timestamp).doneTasks = [] :=
  setupFaults_same _ _

theorem nodup_getDueTasks (store : Store) (timestamp : Nat) :
    ((store.getDueTasks timestamp).map Task.id).Nodup := by
  rw [getDueTasks, List.map_map]
  have hsorted := (List.perm_insertionSort (fun u v : StoredTask => u.timestamp ≤ v.timestamp)
    store.tasks).map fun t => t.task.id
  exact (hsorted.nodup_iff.mpr store.nodup).sublist ((List.takeWhile_sublist _).map _)

/-- The id of a task tells which one it is. -/
theorem task_unique {t u : StoredTask} (ht : t ∈ store.tasks) (hu : u ∈ store.tasks)
    (h : t.task.id = u.task.id) : t = u :=
  List.inj_on_of_nodup_map store.nodup ht hu h

theorem mem_getDueTasks {t : Task Provision} :
    t ∈ store.getDueTasks timestamp ↔ ∃ u ∈ store.tasks, u.timestamp < timestamp ∧ u.task = t := by
  have htake : ∀ l : List StoredTask, l.Pairwise (fun u v => u.timestamp ≤ v.timestamp) →
      ∀ u, u ∈ l.takeWhile (fun t => t.timestamp < timestamp) ↔ u ∈ l ∧ u.timestamp < timestamp := by
    intro l hl u
    induction l with
    | nil => simp
    | cons v l ih =>
        obtain ⟨hv, hl⟩ := List.pairwise_cons.mp hl
        by_cases hdue : v.timestamp < timestamp
        · rw [List.takeWhile_cons, if_pos (decide_eq_true hdue), List.mem_cons, List.mem_cons, ih hl]
          constructor
          · rintro (rfl | ⟨hu, hlt⟩)
            · exact ⟨Or.inl rfl, hdue⟩
            · exact ⟨Or.inr hu, hlt⟩
          · rintro ⟨rfl | hu, hlt⟩
            · exact Or.inl rfl
            · exact Or.inr ⟨hu, hlt⟩
        · rw [List.takeWhile_cons, if_neg (of_decide_eq_true.mt hdue)]
          refine iff_of_false List.not_mem_nil ?_
          rintro ⟨hu, hlt⟩
          rcases List.mem_cons.mp hu with rfl | hu
          · exact hdue hlt
          · exact hdue ((hv u hu).trans_lt hlt)
  have htotal : Std.Total fun u v : StoredTask => u.timestamp ≤ v.timestamp :=
    ⟨fun u v => Nat.le_total u.timestamp v.timestamp⟩
  have htrans : IsTrans StoredTask fun u v => u.timestamp ≤ v.timestamp :=
    ⟨fun _ _ _ huv hvw => huv.trans hvw⟩
  have hsorted := List.pairwise_insertionSort (fun u v : StoredTask => u.timestamp ≤ v.timestamp)
    store.tasks
  rw [getDueTasks, List.mem_map]
  constructor
  · rintro ⟨u, hu, rfl⟩
    obtain ⟨hu, hlt⟩ := (htake _ hsorted u).mp hu
    exact ⟨u, (List.mem_insertionSort _).mp hu, hlt, rfl⟩
  · rintro ⟨u, hu, hlt, rfl⟩
    exact ⟨u, (htake _ hsorted u).mpr ⟨(List.mem_insertionSort _).mpr hu, hlt⟩, rfl⟩

/-! ## What a session leaves -/

theorem get?_saveTouched (faults : InsMap Channel StoredFault) (k : Channel) :
    (saveTouched s faults k).get? c =
      if c = k then (s.faults.get? c).map (savedFault · (s.retries.get? c)) else faults.get? c := by
  unfold saveTouched
  by_cases hc : c = k
  · subst hc
    rw [if_pos rfl]
    cases s.faults.get? c with
    | some fault => exact InsMap.get?_set_self ..
    | none => rw [InsMap.get?_erase, if_pos rfl, Option.map_none]
  · rw [if_neg hc]
    cases s.faults.get? k with
    | some fault => exact InsMap.get?_set_of_ne _ hc _
    | none => rw [InsMap.get?_erase, if_neg hc]

theorem get?_saved (l : List Channel) (faults : InsMap Channel StoredFault) :
    (l.foldl (saveTouched s) faults).get? c =
      if c ∈ l then (s.faults.get? c).map (savedFault · (s.retries.get? c)) else faults.get? c := by
  induction l generalizing faults with
  | nil => rfl
  | cons k l ih =>
      rw [List.foldl_cons, ih, get?_saveTouched]
      by_cases hl : c ∈ l
      · rw [if_pos hl, if_pos (List.mem_cons_of_mem k hl)]
      · rw [if_neg hl]
        simp only [List.mem_cons, hl, or_false]

end

/-! ## The API -/

def insertTask (store : Store) (t : StoredTask) (h : t.task.id ∉ store.used) : Store where
  faults := store.faults
  tasks := store.tasks ++ [t]
  used := t.task.id :: store.used
  nodup := by
    rw [List.map_append, List.map_singleton, List.nodup_append]
    refine ⟨store.nodup, List.nodup_singleton _, ?_⟩
    rintro _ hmem _ hlast rfl
    obtain ⟨u, hu, heq⟩ := List.mem_map.mp hmem
    rw [List.mem_singleton.mp hlast] at heq
    exact h (heq ▸ store.tasks_used u hu)
  tasks_used u hu := by
    rcases List.mem_append.mp hu with hu | hu
    · exact List.mem_cons_of_mem _ (store.tasks_used u hu)
    · rw [List.mem_singleton.mp hu]
      exact List.mem_cons_self ..

def deleteTask (store : Store) (id : String) : Store :=
  store.keep store.faults fun t => t.task.id ≠ id

def deleteFault (store : Store) (c : Channel) : Store :=
  store.keep (store.faults.erase c) fun _ => true

end Store

/-! ## The machine -/

/-- What is stored for a device, when its last session began, and the session if it has
not ended. -/
structure DeviceState where
  store : Store
  now : Nat
  session : Option SessionRun

inductive DeviceStep (J : Js) : DeviceState → DeviceState → Prop
  | begin {d timestamp} : d.session = none → d.now ≤ timestamp →
      DeviceStep J d
        { d with now := timestamp, session := some { context := d.store.setup timestamp } }
  | act {d r r'} (a : SessionRun.Action) : d.session = some r → SessionRun.step J r a = some r' →
      DeviceStep J d { d with session := some r' }
  | finish {d r} : d.session = some r → r.control = .ended →
      DeviceStep J d { d with store := d.store.save r.context, session := none }
  | insertTask {d} (t : StoredTask) (h : t.task.id ∉ d.store.used) :
      DeviceStep J d { d with store := d.store.insertTask t h }
  | deleteTask {d} (id : String) : DeviceStep J d { d with store := d.store.deleteTask id }
  | deleteFault {d} (c : Channel) : DeviceStep J d { d with store := d.store.deleteFault c }

end GenieAcs
