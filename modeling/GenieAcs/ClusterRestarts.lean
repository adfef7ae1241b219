import Mathlib.Data.List.Nodup
import Mathlib.Algebra.Order.Ring.Int
import Mathlib.Tactic.Ring
import Mathlib.Data.List.Perm.Subperm

/-!
# Restarting workers

The master process forks a new worker for every worker that dies, at most one
every two seconds, until more than five have died in each of the last three
minutes. Then it gives up.

The crashes it keeps are those of the last three minutes, and no others count
(`Runs.respawned`): until it gives up, every worker that died is alive again or
is due within two seconds for each worker of the cluster.
-/

namespace GenieAcs

/-! ## The master process -/

/-- The variables of the module, the workers that are alive and the times that
timers are set to. -/
structure Cluster where
  respawnTimestamp : ℤ
  crashes : List ℤ
  alive : ℕ
  timers : List ℤ
  exitCode : Bool
  /-- `restartWorker` listens to exits. -/
  listening : Bool

namespace Cluster

def start (workerCount : ℕ) : Cluster where
  respawnTimestamp := 0
  crashes := []
  alive := workerCount
  timers := []
  exitCode := false
  listening := true

def min1 (now : ℤ) (crashes : List ℤ) : ℕ := crashes.countP fun n => now - 60000 < n

def min2 (now : ℤ) (crashes : List ℤ) : ℕ :=
  crashes.countP fun n => ¬ now - 60000 < n ∧ now - 120000 < n

def min3 (now : ℤ) (crashes : List ℤ) : ℕ :=
  crashes.countP fun n => ¬ now - 60000 < n ∧ ¬ now - 120000 < n ∧ now - 180000 < n

/-- More than five crashes in each of the last three minutes. -/
def TooMany (now : ℤ) (crashes : List ℤ) : Prop :=
  5 < min1 now crashes ∧ 5 < min2 now crashes ∧ 5 < min3 now crashes

instance (now : ℤ) (crashes : List ℤ) : Decidable (TooMany now crashes) :=
  inferInstanceAs (Decidable (_ ∧ _))

/-- A worker has died. -/
def restartWorker (s : Cluster) (now : ℤ) : Cluster :=
  let crashes := (s.crashes ++ [now]).filter fun n => now - 180000 < n
  if TooMany now (s.crashes ++ [now]) then
    { s with crashes, alive := s.alive - 1, exitCode := true, listening := false }
  else
    let respawnTimestamp := max now (s.respawnTimestamp + 2000)
    if respawnTimestamp = now then { s with crashes, respawnTimestamp }
    else
      { s with
        crashes
        respawnTimestamp
        alive := s.alive - 1
        timers := s.timers ++ [respawnTimestamp] }

/-- The timer that is set to `due` fires. -/
def respawn (s : Cluster) (due : ℤ) : Cluster :=
  { s with
    timers := s.timers.erase due
    alive := if s.exitCode then s.alive else s.alive + 1 }

def stop (s : Cluster) : Cluster := { s with listening := false }

/-! ## Runs -/

/-- The states of a cluster of `workerCount` workers at the time `now`; `exits` are the times
at which `restartWorker` was told of a worker that died, and `respawns` the times for which it
planned another, the last one first. A timer may be late. -/
inductive Runs (workerCount : ℕ) : List ℤ → List ℤ → ℤ → Cluster → Prop where
  | start {now : ℤ} : 0 ≤ now → Runs workerCount [] [] now (start workerCount)
  | wait {exits respawns : List ℤ} {now now' : ℤ} {s : Cluster} :
      Runs workerCount exits respawns now s → now ≤ now' → Runs workerCount exits respawns now' s
  | exit {exits respawns : List ℤ} {now : ℤ} {s : Cluster} :
      Runs workerCount exits respawns now s → 0 < s.alive → s.listening = true →
      Runs workerCount (now :: exits)
        (if TooMany now (s.crashes ++ [now]) then respawns
          else (s.restartWorker now).respawnTimestamp :: respawns)
        now (s.restartWorker now)
  | ignored {exits respawns : List ℤ} {now : ℤ} {s : Cluster} :
      Runs workerCount exits respawns now s → 0 < s.alive → s.listening = false →
      Runs workerCount exits respawns now { s with alive := s.alive - 1 }
  | timer {exits respawns : List ℤ} {now due : ℤ} {s : Cluster} :
      Runs workerCount exits respawns now s → due ∈ s.timers → due ≤ now →
      Runs workerCount exits respawns now (s.respawn due)
  | stop {exits respawns : List ℤ} {now : ℤ} {s : Cluster} :
      Runs workerCount exits respawns now s → Runs workerCount exits respawns now s.stop

/-- What holds at the time `now` of every run. -/
structure Invariant (workerCount : ℕ) (exits respawns : List ℤ) (now : ℤ) (s : Cluster) :
    Prop where
  time : 0 ≤ now
  exits_le : ∀ n ∈ exits, n ≤ now
  crashes : s.crashes = (exits.filter fun n => exits.headD 0 - 180000 < n).reverse
  gaveUp : s.exitCode = true ↔ ∃ last ∈ exits.head?, TooMany last exits
  workers : s.listening = true → s.alive + s.timers.length = workerCount
  timers_le : s.timers.length ≤ workerCount
  listens : s.listening = true → s.exitCode = false
  spaced : respawns.Pairwise fun later earlier => earlier + 2000 ≤ later
  last : ∀ r ∈ respawns, r ≤ s.respawnTimestamp
  timers : ∀ due ∈ s.timers, due ≤ s.respawnTimestamp ∧ due ∈ respawns
  /-- The timers that are not due yet are two seconds apart. -/
  backlog : ∀ k : ℕ, now < s.respawnTimestamp - 2000 * k → s.respawnTimestamp - 2000 * k ∈ s.timers

/-! ## The crashes that are kept -/

/-- The crashes that count are among those that are kept. -/
theorem countP_crashes {exits : List ℤ} {now last : ℤ} {p : ℤ → Bool} (hle : last ≤ now)
    (hp : ∀ n, p n = true → now - 180000 < n) :
    ((exits.filter fun n => last - 180000 < n).reverse ++ [now]).countP p
      = (now :: exits).countP p := by
  have hfilter : (exits.filter fun n => last - 180000 < n).countP p = exits.countP p := by
    rw [List.countP_filter]
    refine List.countP_congr fun n _ => ?_
    rw [Bool.and_eq_true, decide_eq_true_eq]
    exact and_iff_left_of_imp fun h => by have := hp n h; omega
  rw [List.countP_append, List.countP_reverse, hfilter, List.countP_cons, List.countP_cons,
    List.countP_nil, Nat.zero_add]

theorem tooMany_crashes {exits : List ℤ} {now last : ℤ} (hle : last ≤ now) :
    TooMany now ((exits.filter fun n => last - 180000 < n).reverse ++ [now])
      ↔ TooMany now (now :: exits) := by
  rw [TooMany, TooMany, min1, min2, min3, countP_crashes hle, countP_crashes hle,
    countP_crashes hle]
  · rfl
  all_goals
    intro n h
    simp only [decide_eq_true_eq] at h
    omega

theorem filter_crashes {exits : List ℤ} {now last : ℤ} (hle : last ≤ now) :
    (((exits.filter fun n => last - 180000 < n).reverse ++ [now]).filter
      fun n => now - 180000 < n) = ((now :: exits).filter fun n => now - 180000 < n).reverse := by
  have hfilter : ((exits.filter fun n => last - 180000 < n).filter fun n => now - 180000 < n)
      = exits.filter fun n => now - 180000 < n := by
    rw [List.filter_filter]
    refine List.filter_congr fun n _ => ?_
    rw [← Bool.decide_and]
    exact decide_eq_decide.mpr (and_iff_left_of_imp fun h => by omega)
  rw [List.filter_append, List.filter_reverse, hfilter, List.filter_cons_of_pos (by simp),
    List.filter_cons_of_pos (by simp), List.filter_nil, List.reverse_cons]

/-! ## What every step keeps -/

variable {workerCount : ℕ} {exits respawns : List ℤ} {now : ℤ} {s : Cluster}

theorem Invariant.start (hnow : 0 ≤ now) : Invariant workerCount [] [] now (start workerCount) where
  time := hnow
  exits_le := by simp
  crashes := rfl
  gaveUp := by simp [Cluster.start]
  workers _ := Nat.add_zero _
  timers_le := Nat.zero_le _
  listens _ := rfl
  spaced := .nil
  last := by simp
  timers := by simp [Cluster.start]
  backlog k hk := by
    have hzero : (Cluster.start workerCount).respawnTimestamp = 0 := rfl
    omega

theorem Invariant.wait {now' : ℤ} (h : Invariant workerCount exits respawns now s)
    (hle : now ≤ now') : Invariant workerCount exits respawns now' s :=
  { h with
    time := h.time.trans hle
    exits_le := fun n hn => (h.exits_le n hn).trans hle
    backlog := fun k hk => h.backlog k (by omega) }

theorem Invariant.ignored (h : Invariant workerCount exits respawns now s)
    (hlistening : s.listening = false) :
    Invariant workerCount exits respawns now { s with alive := s.alive - 1 } :=
  { h with workers := fun hl => by simp [hlistening] at hl }

theorem Invariant.stop (h : Invariant workerCount exits respawns now s) :
    Invariant workerCount exits respawns now s.stop :=
  { h with
    workers := fun hl => by simp [Cluster.stop] at hl
    listens := fun hl => by simp [Cluster.stop] at hl }

theorem Invariant.timer {due : ℤ} (h : Invariant workerCount exits respawns now s)
    (hdue : due ∈ s.timers) (hle : due ≤ now) :
    Invariant workerCount exits respawns now (s.respawn due) :=
  { h with
    workers := fun hl => by
      have hworkers := h.workers hl
      have hlength := List.length_erase_of_mem hdue
      have hpos := List.length_pos_of_mem hdue
      simp only [respawn, h.listens hl, Bool.false_eq_true, if_false]
      omega
    timers_le := (List.length_erase_le).trans h.timers_le
    timers := fun d hd => h.timers d (List.mem_of_mem_erase hd)
    backlog := fun k hk => (List.mem_erase_of_ne (by
      have hk : now < s.respawnTimestamp - 2000 * k := hk
      show s.respawnTimestamp - 2000 * k ≠ due
      omega)).mpr (h.backlog k hk) }

theorem Invariant.headD_le (h : Invariant workerCount exits respawns now s) :
    exits.headD 0 ≤ now := by
  cases exits with
  | nil => exact h.time
  | cons n exits => exact h.exits_le n List.mem_cons_self

/-- What a death does to the invariant, whether the process gives up or not. -/
theorem Invariant.exit_crashes (h : Invariant workerCount exits respawns now s) :
    (s.crashes ++ [now]).filter (fun n => now - 180000 < n)
        = ((now :: exits).filter fun n => (now :: exits).headD 0 - 180000 < n).reverse
      ∧ (TooMany now (s.crashes ++ [now]) ↔ TooMany now (now :: exits)) := by
  rw [h.crashes]
  exact ⟨filter_crashes h.headD_le, tooMany_crashes h.headD_le⟩

theorem Invariant.giveUp (h : Invariant workerCount exits respawns now s)
    (hmany : TooMany now (s.crashes ++ [now])) :
    Invariant workerCount (now :: exits) respawns now (s.restartWorker now) := by
  obtain ⟨hcrashes, htooMany⟩ := h.exit_crashes
  rw [restartWorker, if_pos hmany]
  exact { h with
    exits_le := List.forall_mem_cons.mpr ⟨le_rfl, h.exits_le⟩
    crashes := hcrashes
    gaveUp := iff_of_true rfl ⟨now, rfl, htooMany.mp hmany⟩
    workers := fun hl => by simp at hl
    listens := fun hl => by simp at hl }

theorem Invariant.restart (h : Invariant workerCount exits respawns now s) (halive : 0 < s.alive)
    (hlistening : s.listening = true) (hfew : ¬ TooMany now (s.crashes ++ [now])) :
    Invariant workerCount (now :: exits) ((s.restartWorker now).respawnTimestamp :: respawns) now
      (s.restartWorker now) := by
  obtain ⟨hcrashes, htooMany⟩ := h.exit_crashes
  have hworkers := h.workers hlistening
  have hexit : s.exitCode = true ↔ ∃ last ∈ (now :: exits).head?, TooMany last (now :: exits) := by
    refine iff_of_false (by simp [h.listens hlistening]) ?_
    rintro ⟨last, hlast, hmany⟩
    obtain rfl := Option.some.inj hlast
    exact hfew (htooMany.mpr hmany)
  have hspaced : ∀ r ∈ respawns, r + 2000 ≤ max now (s.respawnTimestamp + 2000) := fun r hr =>
    (Int.add_le_add_right (h.last r hr) 2000).trans (le_max_right _ _)
  have hearlier : ∀ r : ℤ, r ≤ s.respawnTimestamp → r ≤ max now (s.respawnTimestamp + 2000) :=
    fun r hr => (by omega : r ≤ s.respawnTimestamp + 2000).trans (le_max_right _ _)
  rw [restartWorker, if_neg hfew]
  dsimp only
  split_ifs with hnow
  · exact { h with
      exits_le := List.forall_mem_cons.mpr ⟨le_rfl, h.exits_le⟩
      crashes := hcrashes
      gaveUp := hexit
      spaced := List.pairwise_cons.mpr ⟨hspaced, h.spaced⟩
      last := List.forall_mem_cons.mpr ⟨le_rfl, fun r hr => hearlier r (h.last r hr)⟩
      timers := fun due hdue => by
        obtain ⟨hle, hmem⟩ := h.timers due hdue
        exact ⟨hearlier due hle, List.mem_cons_of_mem _ hmem⟩
      backlog := fun k hk => by
        have hk : now < max now (s.respawnTimestamp + 2000) - 2000 * k := hk
        omega }
  · have hlater : max now (s.respawnTimestamp + 2000) = s.respawnTimestamp + 2000 := by omega
    exact { h with
      exits_le := List.forall_mem_cons.mpr ⟨le_rfl, h.exits_le⟩
      crashes := hcrashes
      gaveUp := hexit
      workers := fun _ => by
        show s.alive - 1 + (s.timers ++ [_]).length = workerCount
        rw [List.length_append, List.length_singleton]
        omega
      timers_le := by
        rw [List.length_append, List.length_singleton]
        omega
      spaced := List.pairwise_cons.mpr ⟨hspaced, h.spaced⟩
      last := List.forall_mem_cons.mpr ⟨le_rfl, fun r hr => hearlier r (h.last r hr)⟩
      timers := fun due hdue => by
        rcases List.mem_append.mp hdue with hdue | hdue
        · obtain ⟨hle, hmem⟩ := h.timers due hdue
          exact ⟨hearlier due hle, List.mem_cons_of_mem _ hmem⟩
        · rw [List.mem_singleton.mp hdue]
          exact ⟨le_rfl, List.mem_cons_self⟩
      backlog := fun k hk => by
        rw [hlater] at hk ⊢
        cases k with
        | zero => exact List.mem_append_right _ (by simp)
        | succ k =>
            -- the timer before the new one by `k + 1` was by `k` before the last one
            have hsame : s.respawnTimestamp + 2000 - 2000 * ((k + 1 : ℕ) : ℤ)
                = s.respawnTimestamp - 2000 * k := by
              push_cast
              ring
            rw [hsame] at hk ⊢
            exact List.mem_append_left _ (h.backlog k hk) }

theorem Runs.invariant (h : Runs workerCount exits respawns now s) :
    Invariant workerCount exits respawns now s := by
  induction h with
  | start hnow => exact .start hnow
  | wait _ hle ih => exact ih.wait hle
  | exit _ halive hlistening ih =>
      split_ifs with hmany
      · exact ih.giveUp hmany
      · exact ih.restart halive hlistening hmany
  | ignored _ _ hlistening ih => exact ih.ignored hlistening
  | timer _ hdue hle ih => exact ih.timer hdue hle
  | stop _ ih => exact ih.stop

/-- The backlog is as long as there are timers. -/
theorem Invariant.respawn_le (h : Invariant workerCount exits respawns now s) :
    s.respawnTimestamp ≤ now + 2000 * s.timers.length := by
  by_contra hlater
  rw [not_le] at hlater
  have hsub : (List.range (s.timers.length + 1)).map
      (fun k : ℕ => s.respawnTimestamp - 2000 * k) ⊆ s.timers := by
    intro due hdue
    obtain ⟨k, hk, rfl⟩ := List.mem_map.mp hdue
    have hk := List.mem_range.mp hk
    exact h.backlog k (by omega)
  have hnodup : ((List.range (s.timers.length + 1)).map
      (fun k : ℕ => s.respawnTimestamp - 2000 * k)).Nodup :=
    List.nodup_range.map fun i j hij => by
      have hij : s.respawnTimestamp - 2000 * (i : ℤ) = s.respawnTimestamp - 2000 * j := hij
      omega
  have hlength := (List.subperm_of_subset hnodup hsub).length_le
  rw [List.length_map, List.length_range] at hlength
  omega

/-- A cluster at any time of any run. The crashes it keeps are those of the three minutes before
the last one, and it has given up just when the last one was too many, among all there were.
Until it gives up or is stopped every worker is alive or has its timer. Workers are planned two
seconds apart, and none is due later than in two seconds for each worker. -/
theorem Runs.respawned (h : Runs workerCount exits respawns now s) :
    s.crashes = (exits.filter fun n => exits.headD 0 - 180000 < n).reverse
      ∧ (s.exitCode = true ↔ ∃ last ∈ exits.head?, TooMany last exits)
      ∧ (s.listening = true → s.alive + s.timers.length = workerCount)
      ∧ respawns.Pairwise (fun later earlier => earlier + 2000 ≤ later)
      ∧ ∀ due ∈ s.timers, due ∈ respawns ∧ due ≤ now + 2000 * workerCount := by
  have hinv := h.invariant
  refine ⟨hinv.crashes, hinv.gaveUp, hinv.workers, hinv.spaced, fun due hdue => ?_⟩
  obtain ⟨hle, hmem⟩ := hinv.timers due hdue
  have hbacklog := hinv.respawn_le
  have htimers := hinv.timers_le
  exact ⟨hmem, by omega⟩

/-- Of two workers that die at once one is replaced at once, the other after two seconds. -/
theorem Runs.respawned_two :
    (((Cluster.start 2).restartWorker 5000).restartWorker 5000).crashes = [5000, 5000]
      ∧ ∀ due ∈ (((Cluster.start 2).restartWorker 5000).restartWorker 5000).timers,
        due ∈ [(7000 : ℤ), 5000] ∧ due ≤ 5000 + 2000 * (2 : ℕ) :=
  have hstart : Runs 2 [] [] 5000 (Cluster.start 2) := .start (by decide)
  have hrun : Runs 2 [5000, 5000] [7000, 5000] 5000
      (((Cluster.start 2).restartWorker 5000).restartWorker 5000) :=
    (hstart.exit (by decide) rfl).exit (by decide) rfl
  ⟨(Runs.respawned hrun).1, (Runs.respawned hrun).2.2.2.2⟩

end Cluster

end GenieAcs
