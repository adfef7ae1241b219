import GenieAcs.TaskSettlement

/-!
# Runs of a session over its tasks

Each step of a session keeps the books of a task, as long as no preset is on
the channel of a task and the retry of a task needs a request. So at the end
every task that has run is settled.
-/

namespace GenieAcs

namespace SessionRun

open SessionContext

/-- The books of a task, and where its channel may be set. -/
structure Kept (strict : Prop) (id : String) (r : SessionRun) : Prop where
  accounted : Accounted strict id r.context r.history
  placed : .task id ∈ r.context.provisioning.channels.keys →
    r.declared = false ∧ (r.control = .nextRpc ∨ r.control = .sent)
  flagged : .task id ∈ r.context.provisioning.channels.keys →
    (r.context.faults.get? (.task id)).isSome → r.context.provisioning.mask (.task id) ≠ 0
  served : r.control = .sent → r.context.provisioning.provisions ≠ [] ∨ r.declared = true

section

variable {strict : Prop} {id : String} {s s' : SessionContext Provision}
  {history : List ChannelEvent} {r r' : SessionRun} {J : Js} {E : Surroundings}

theorem Kept.idle (h : Accounted strict id r.context r.history)
    (hk : .task id ∉ r.context.provisioning.channels.keys) (hc : r.control ≠ .sent) :
    Kept strict id r :=
  ⟨h, fun hmem => absurd hmem hk, fun hmem => absurd hmem hk, fun hsent => absurd hsent hc⟩

theorem Kept.not_running {c : Control} (h : Kept strict id r) (hcontrol : r.control = c)
    (hn : c ≠ .nextRpc) (hs : c ≠ .sent) :
    .task id ∉ r.context.provisioning.channels.keys := by
  intro hk
  rcases (h.placed hk).2 with hc | hc
  · exact hn (hcontrol.symm.trans hc)
  · exact hs (hcontrol.symm.trans hc)

theorem rpcRequest_request {declared : Bool} {answer : Answer}
    (h : rpcRequest s declared answer = .request) :
    s.provisioning.provisions ≠ [] ∨ declared = true := by
  unfold rpcRequest at h
  split_ifs at h with hnone
  rw [Bool.and_eq_true, List.isEmpty_iff, Bool.not_eq_true'] at hnone
  cases declared with
  | true => exact Or.inr rfl
  | false => exact Or.inl fun hnil => hnone ⟨hnil, rfl⟩

theorem recorded_keys {c : Channel} (h : Recorded c s s') (d : Channel) :
    d ∉ s'.provisioning.channels.keys := by
  rw [h.cleared]
  exact List.not_mem_nil

theorem charge_recorded {fault : Fault} (htime : fault.timestamp.getD s.timestamp = s.timestamp)
    (h : s.charge J fault = some s') (c : Channel) : Recorded c s s' := by
  obtain ⟨s1, hs1, rfl⟩ := Option.map_eq_some_iff.mp h
  obtain ⟨⟨h1, h2, h3⟩, -, hout, hin, halone⟩ := recordSessionFault_recorded htime hs1 c
  exact ⟨⟨h1, h2, h3⟩, rfl, hout, hin, halone⟩

/-! ## Retrying later -/

/-- The faults stay as they are, but for what says to retry them at once. -/
theorem Accounted.deleteRetryNow (h : Accounted strict id s history) :
    Accounted strict id s.deleteRetryNow history := by
  have hget := get?_deleteRetryNow s (.task id)
  have hsome : (s.deleteRetryNow.faults.get? (.task id)).isSome
      = (s.faults.get? (.task id)).isSome := by
    rw [hget, Option.isSome_map]
  refine ⟨h.ids, h.live, h.pending, ?_, h.alone, ?_, ?_, ?_⟩
  · intro hdone
    obtain ⟨hnone, hk⟩ := h.clean hdone
    rw [hget, hnone]
    exact ⟨rfl, hk⟩
  · rw [hsome]
    exact h.ran
  · rw [hsome]
    exact h.faulted
  · intro hstrict hmem
    obtain ⟨⟨fault, hfault, htime, -⟩, hk⟩ := h.held hstrict hmem
    rw [hfault] at hget
    exact ⟨⟨_, hget, htime, rfl⟩, hk⟩

/-! ## What `nextRpc` completes -/

/-- The task that is found is the only one with its id. -/
theorem id_notMem_eraseP {tasks : List (Task Provision)} {p : Task Provision → Bool}
    {t : Task Provision} (hnodup : (tasks.map Task.id).Nodup) (hfind : tasks.find? p = some t) :
    t.id ∉ (tasks.eraseP p).map Task.id := by
  induction tasks with
  | nil => cases hfind
  | cons u tasks ih =>
      obtain ⟨hu, hnodup⟩ := List.nodup_cons.mp hnodup
      by_cases hp : p u = true
      · rw [List.find?_cons_of_pos hp] at hfind
        obtain rfl := Option.some.inj hfind
        rw [List.eraseP_cons_of_pos hp]
        exact hu
      · rw [List.find?_cons_of_neg hp] at hfind
        rw [List.eraseP_cons_of_neg hp, List.map_cons, List.mem_cons, not_or]
        refine ⟨?_, ih hnodup hfind⟩
        intro heq
        exact hu (heq ▸ List.mem_map_of_mem (List.mem_of_find?_eq_some hfind))

/-- A task that is done, its fault gone and its channel not set any more. -/
theorem Accounted.finish {p : Task Provision → Bool} {t : Task Provision}
    (h : Accounted strict id s history) (hfind : s.tasks.find? p = some t) (hid : t.id = id)
    (htime : s'.timestamp = s.timestamp) (htasks : s'.tasks = s.tasks.eraseP p)
    (hdone : s'.doneTasks = s.doneTasks ++ [id])
    (hnone : s'.faults.get? (.task id) = none)
    (hk : .task id ∉ s'.provisioning.channels.keys)
    (hlast : lastEvent (.task id) history ≠ some (.faulted (.task id)))
    (hheld : strict → .faulted (.task id) ∉ history) : Accounted strict id s' history where
  ids := htasks ▸ h.ids.sublist (List.eraseP_sublist.map Task.id)
  live t ht heq := by
    rw [htasks] at ht
    rw [htime]
    exact h.live t (List.mem_of_mem_eraseP ht) heq
  pending := by
    rw [htasks, hdone]
    refine iff_of_false ?_ (by simp)
    exact hid ▸ id_notMem_eraseP h.ids hfind
  clean _ := ⟨hnone, hk⟩
  alone hmem := absurd hmem hk
  ran _ := by
    rw [hdone]
    exact Or.inl (List.mem_append_right _ (List.mem_singleton_self id))
  faulted h' := absurd h' hlast
  held hstrict hmem := absurd hmem (hheld hstrict)

theorem entries_of_keys {V : Type} {m : InsMap Channel V} {c : Channel} (h : m.keys = [c]) :
    ∃ v, m.entries = [(c, v)] ∧ m.get? c = some v := by
  obtain ⟨⟨d, v⟩, hentries, hd⟩ := List.map_eq_singleton_iff.mp h
  obtain rfl : d = c := hd
  exact ⟨v, hentries, InsMap.get?_eq_some.mpr (hentries ▸ List.mem_singleton_self _)⟩

/-- The loop over the channels that `rpcRequest` has completed. -/
theorem accounted_complete (h : Accounted strict id s history)
    (hflag : .task id ∈ s.provisioning.channels.keys → (s.faults.get? (.task id)).isSome →
      s.provisioning.mask (.task id) ≠ 0) :
    Accounted strict id
      (s.provisioning.channels.entries.foldl completeChannel s).clearProvisions
      (running s ++ history) := by
  by_cases hk : .task id ∈ s.provisioning.channels.keys
  · obtain ⟨m, hentries, hget⟩ := entries_of_keys (h.alone hk)
    have hmask : s.provisioning.mask (.task id) = m := by
      rw [Provisioning.mask, hget]
      rfl
    have hpending : id ∈ s.tasks.map Task.id := by
      rw [h.pending]
      exact fun hdone => (h.clean hdone).2 hk
    obtain ⟨u, hu, huid⟩ := List.mem_map.mp hpending
    obtain ⟨t, hfind⟩ : ∃ t, s.tasks.find? (fun t => t.id = id) = some t := by
      apply Option.isSome_iff_exists.mp
      rw [List.find?_isSome]
      exact ⟨u, hu, decide_eq_true huid⟩
    have hid : t.id = id := by simpa using List.find?_some hfind
    have hnone : (if m = 0 then s else s.dropFault (.task id)).faults.get? (.task id) = none := by
      split_ifs with hm
      · by_contra hsome
        exact hflag hk (Option.isSome_iff_ne_none.mpr hsome) (hmask.trans hm)
      · unfold SessionContext.dropFault
        split_ifs with hsome
        · exact (InsMap.get?_erase ..).trans (if_pos rfl)
        · exact Option.not_isSome_iff_eq_none.mp hsome
    have hsame : SameTasks s (if m = 0 then s else s.dropFault (.task id)) := by
      split_ifs
      · exact ⟨rfl, rfl, rfl⟩
      · unfold SessionContext.dropFault
        split_ifs <;> exact ⟨rfl, rfl, rfl⟩
    rw [hentries]
    refine h.running.finish hfind hid hsame.timestamp (congrArg (List.eraseP _) hsame.tasks)
      (congrArg (· ++ [id]) hsame.doneTasks) hnone List.not_mem_nil ?_ ?_
    · rw [lastEvent_running_of_mem hk]
      simp
    · intro hstrict hmem
      rcases List.mem_append.mp hmem with hmem | hmem
      · obtain ⟨d, -, heq⟩ := List.mem_map.mp hmem
        cases heq
      · exact (h.held hstrict hmem).2 hk
  · have hsame : Same id s (s.provisioning.channels.entries.foldl completeChannel s) := by
      apply Same.foldl
      rintro e he s'
      apply Same.completeChannel
      intro heq
      exact hk (List.mem_map.mpr ⟨e, he, heq⟩)
    exact h.running.same (hsame.trans (Same.provisioning id _ _)) hk List.not_mem_nil

/-! ## Which task is next -/

theorem dropFault_provisioning (c : Channel) : (s.dropFault c).provisioning = s.provisioning := by
  unfold SessionContext.dropFault
  split_ifs <;> rfl

theorem dropFaults_provisioning (l : List Channel) :
    (l.foldl dropFault s).provisioning = s.provisioning :=
  List.foldlRecOn (motive := fun s' => s'.provisioning = s.provisioning) l dropFault rfl
    fun _ h c _ => (dropFault_provisioning c).trans h

theorem dropTasks_provisioning (l : List (Task Provision)) (s : SessionContext Provision) :
    (l.foldl dropTask s).provisioning = s.provisioning := by
  refine List.foldlRecOn (motive := fun s' => s'.provisioning = s.provisioning) l dropTask rfl
    fun s' h t _ => ?_
  rw [dropTask, dropFault_provisioning]
  exact h

theorem clearExpired_provisioning : s.clearExpired.provisioning = s.provisioning :=
  dropTasks_provisioning _ _

/-- Only the provisions and channels change, and only this channel is set. -/
def Adds (c : Channel) (s s' : SessionContext Provision) : Prop :=
  ∃ q : Provisioning Provision, s' = { s with provisioning := q }
    ∧ ∀ d, d ∈ q.channels.keys ↔ d = c ∨ d ∈ s.provisioning.channels.keys

theorem addProvisions_adds (c : Channel) (ps : List Provision) :
    Adds c s (s.addProvisions J c ps) :=
  ⟨_, rfl, fun _ => Provisioning.mem_keys_addProvisions⟩

theorem addEach_adds (c : Channel) (ps : List Provision) : Adds c s (s.addEach J c ps) := by
  unfold addEach
  induction ps using List.reverseRecOn with
  | nil => exact ⟨_, rfl, fun _ => Provisioning.mem_keys_clearMask⟩
  | append_singleton ps p ih =>
      obtain ⟨q, hq, hkeys⟩ := ih
      rw [List.foldl_append, hq]
      refine ⟨_, rfl, fun d => ?_⟩
      rw [Provisioning.mem_keys_addProvisions, hkeys]
      tauto

theorem startTask_adds {t : Task Provision} (h : startTask J s t = some s') :
    Adds (.task t.id) s s' := by
  unfold startTask at h
  dsimp only at h
  split at h
  all_goals first
    | (obtain rfl := Option.some.inj h
       first
         | exact addEach_adds _ _
         | exact addProvisions_adds _ _)
    | cases h

theorem eq_singleton {c : Channel} {l : List Channel} (hnodup : l.Nodup)
    (h : ∀ d, d ∈ l ↔ d = c) : l = [c] := by
  cases l with
  | nil => exact absurd ((h c).mpr rfl) List.not_mem_nil
  | cons d l =>
      obtain rfl := (h d).mp (List.mem_cons_self ..)
      obtain ⟨hd, -⟩ := List.nodup_cons.mp hnodup
      congr 1
      rw [List.eq_nil_iff_forall_not_mem]
      intro e he
      exact hd ((h e).mp (List.mem_cons_of_mem d he) ▸ he)

/-- The channel of the task is the only one that is set. -/
theorem Accounted.start (h : Accounted strict id s history) (hadds : Adds (.task id) s s')
    (hk : ∀ c, c ∉ s.provisioning.channels.keys) (hdone : id ∉ s.doneTasks)
    (hheld : strict → .faulted (.task id) ∉ history) : Accounted strict id s' history := by
  obtain ⟨q, rfl, hkeys⟩ := hadds
  have halone : q.channels.keys = [.task id] := by
    apply eq_singleton q.channels.nodup
    intro d
    rw [← InsMap.keys, hkeys]
    exact or_iff_left (hk d)
  refine ⟨h.ids, h.live, h.pending, fun hmem => absurd hmem hdone, fun _ => halone, ?_,
    h.faulted, fun hstrict hmem => absurd hmem (hheld hstrict)⟩
  intro _
  right; right
  show _ ∈ q.channels.keys
  rw [halone]
  exact List.mem_singleton_self _

theorem kept_takeTask (h : Kept strict id r) : Kept strict id (takeTask J r) := by
  have hcomplete := accounted_complete h.accounted h.flagged
  set s1 := (r.context.provisioning.channels.entries.foldl completeChannel r.context).clearProvisions
    with hs1
  have hempty : ∀ c, c ∉ s1.clearExpired.provisioning.channels.keys := by
    intro c
    rw [clearExpired_provisioning]
    exact List.not_mem_nil
  have hcleared := hcomplete.same (Same.clearExpired hcomplete.live) List.not_mem_nil (hempty _)
  unfold takeTask
  dsimp only
  rw [← hs1]
  split
  · exact Kept.idle hcleared (hempty _) (fun heq => nomatch heq)
  · rename_i t hfind
    have hfound := List.find?_some hfind
    have hready : s1.clearExpired.faults.get? (.task t.id) = none :=
      Option.isNone_iff_eq_none.mp hfound
    have hmem : t.id ∈ s1.clearExpired.tasks.map Task.id :=
      List.mem_map_of_mem (List.mem_of_find?_eq_some hfind)
    by_cases hid : t.id = id
    · -- a task that is ready has not faulted
      subst hid
      have hheld : strict → .faulted (.task t.id) ∉ running r.context ++ r.history := by
        intro hstrict hmem
        have hsome := (hcleared.held hstrict hmem).1.isSome
        rw [hready] at hsome
        cases hsome
      have hlast : lastEvent (.task t.id) (running r.context ++ r.history)
          ≠ some (.faulted (.task t.id)) := by
        intro hlast
        have hsome := hcleared.faulted hlast
        rw [hready] at hsome
        cases hsome
      split
      · rename_i s' hs'
        have hadds := startTask_adds hs'
        have hstart := hcleared.start hadds hempty (hcleared.pending.mp hmem) hheld
        obtain ⟨q, rfl, -⟩ := hadds
        refine ⟨hstart, fun _ => ⟨rfl, Or.inl rfl⟩, ?_, fun heq => nomatch heq⟩
        intro _ hsome
        dsimp only at hsome
        rw [hready] at hsome
        cases hsome
      · refine Kept.idle ?_ (hempty _) (fun heq => nomatch heq)
        exact hcleared.finish hfind rfl rfl rfl rfl hready (hempty _) hlast hheld
    · split
      · rename_i s' hs'
        obtain ⟨q, rfl, hkeys⟩ := startTask_adds hs'
        have hk : .task id ∉ q.channels.keys := by
          rw [hkeys, not_or]
          exact ⟨fun heq => hid (Channel.task.inj heq).symm, hempty _⟩
        refine Kept.idle ?_ hk (fun heq => nomatch heq)
        exact hcleared.same (Same.provisioning id _ q) (hempty _) hk
      · refine Kept.idle ?_ (hempty _) (fun heq => nomatch heq)
        refine hcleared.same (Same.finish hid ?_) (hempty _) (hempty _)
        intro u hu
        obtain rfl := Option.some.inj (hfind.symm.trans hu)
        exact hid

theorem recordAnswer_recorded {code message : String}
    (h : recordAnswer J s code message = some s') (c : Channel) : Recorded c s s' :=
  charge_recorded rfl h c

theorem kept_nextRpc {answer : Answer} (h : Kept strict id r)
    (hstep : nextRpc J answer r = some r') : Kept strict id r' := by
  unfold nextRpc at hstep
  split at hstep
  · obtain ⟨s', hs', rfl⟩ := Option.map_eq_some_iff.mp hstep
    have hrecorded := recordAnswer_recorded hs' (.task id)
    refine Kept.idle ?_ (recorded_keys hrecorded _) (fun heq => nomatch heq)
    rw [List.append_assoc]
    exact h.accounted.running.recorded hrecorded
  · rename_i hrequest
    obtain rfl := Option.some.inj hstep
    refine ⟨h.accounted.running, fun hk => ⟨(h.placed hk).1, Or.inr rfl⟩, h.flagged, fun _ => ?_⟩
    exact rpcRequest_request hrequest
  · obtain rfl := Option.some.inj hstep
    exact kept_takeTask h

/-! ## What `applyPresets` runs -/

/-- No preset that passes is on the channel of the task. -/
def Apart (E : Surroundings) (id : String) (s : SessionContext Provision) : Prop :=
  ∀ preset ∈ s.filteredPresets E, preset.channel ≠ .task id

/-- Fetching marks other channels only. -/
theorem markPresets_spec (hapart : Apart E id s) (hk : .task id ∉ s.provisioning.channels.keys) :
    ∃ q : Provisioning Provision,
      s.markPresets E = { s with provisioning := q } ∧ .task id ∉ q.channels.keys := by
  have hmarks : ∀ (l : List Preset), (∀ preset ∈ l, preset.channel ≠ .task id) →
      ∀ s : SessionContext Provision, .task id ∉ s.provisioning.channels.keys →
        ∃ q : Provisioning Provision,
          l.foldl (markPreset E) s = { s with provisioning := q } ∧ .task id ∉ q.channels.keys := by
    intro l
    induction l with
    | nil => exact fun _ s hk => ⟨s.provisioning, rfl, hk⟩
    | cons preset l ih =>
        intro hl s hk
        have hrest := ih fun p hp => hl p (List.mem_cons_of_mem preset hp)
        rw [List.foldl_cons, markPreset]
        split_ifs
        · exact hrest s hk
        · refine hrest { s with provisioning := s.provisioning.clearMask preset.channel } ?_
          rw [Provisioning.mem_keys_clearMask, not_or]
          exact ⟨Ne.symm (hl preset (List.mem_cons_self ..)), hk⟩
  exact hmarks _ hapart s hk

theorem whiteList_retryable {c : Channel} {ps : List Provision}
    (h : s.whiteList E.retryDelay = some (c, ps)) :
    ∃ fault, s.faults.get? c = some fault ∧ retryable E.retryDelay s (c, fault) = true := by
  obtain ⟨⟨d, fault⟩, hfind, heq⟩ := Option.map_eq_some_iff.mp h
  obtain ⟨rfl, -⟩ := Prod.mk.inj heq
  exact ⟨fault, InsMap.get?_eq_some.mpr (List.mem_of_find?_eq_some hfind),
    List.find?_some hfind⟩

/-- A fault of this session has to wait for longer than the session knows. -/
theorem Waits.not_retryable {retryDelay : Option ℚ} {c : Channel} {fault : SessionFault Provision}
    (hdelay : ∀ delay ∈ retryDelay, 0 < delay) (h : Waits s.faults c s.timestamp)
    (hget : s.faults.get? c = some fault) : retryable retryDelay s (c, fault) = false := by
  obtain ⟨fault', hget', htime, hnow⟩ := h
  obtain rfl := Option.some.inj (hget.symm.trans hget')
  have hlater : ∀ t, retryTimestamp retryDelay s c fault = some t → (s.timestamp : ℚ) < t := by
    intro t ht
    unfold retryTimestamp at ht
    rw [if_neg (by rw [hnow]; exact Bool.false_ne_true)] at ht
    split at ht
    · rename_i delay retries _
      obtain rfl := Option.some.inj ht
      have hpos : 0 < delay * 2 ^ retries * 1000 :=
        mul_pos (mul_pos (hdelay delay rfl) (pow_pos two_pos retries)) (by norm_num)
      rw [htime]
      linarith
    · cases ht
  rw [retryable]
  cases ht : retryTimestamp retryDelay s c fault with
  | none => rfl
  | some t => exact decide_eq_false (not_le.mpr (hlater t ht))

theorem filteredPresets_of_whiteList {c : Channel} {ps : List Provision}
    (h : s.whiteList E.retryDelay = some (c, ps)) {preset : Preset}
    (hp : preset ∈ s.filteredPresets E) : preset.channel = c := by
  have hpasses := (List.mem_filter.mp hp).2
  rw [passes, h] at hpasses
  simp only [Bool.and_eq_true, decide_eq_true_eq] at hpasses
  exact hpasses.1.1

/-- The loop over the filtered presets leaves the task alone. -/
theorem addPresets_spec (blackList : Channel → Nat) (l : List Preset)
    (hl : ∀ preset ∈ l, preset.channel ≠ .task id) :
    ∀ q : SessionContext Provision × InsMap Channel (List Provision),
      Same id s q.1 → .task id ∉ q.1.provisioning.channels.keys → .task id ∉ q.2.keys →
      let q' := l.foldl (addPreset J E blackList) q
      Same id s q'.1 ∧ .task id ∉ q'.1.provisioning.channels.keys ∧ .task id ∉ q'.2.keys := by
  induction l with
  | nil => exact fun _ hs hk hk' => ⟨hs, hk, hk'⟩
  | cons preset l ih =>
      intro q hs hk hk'
      have hne := Ne.symm (hl preset (List.mem_cons_self ..))
      have hrest := ih fun p hp => hl p (List.mem_cons_of_mem preset hp)
      rw [List.foldl_cons, addPreset]
      dsimp only
      split_ifs
      · refine hrest _ hs hk ?_
        rw [InsMap.mem_keys]
        simp only [InsMap.get?_set, if_neg hne]
        rw [← InsMap.mem_keys]
        exact hk'
      · refine hrest (_, _) (hs.trans (Same.provisioning id _ _)) ?_ hk'
        show _ ∉ (Provisioning.addProvisions _ _ _ _).channels.keys
        rw [Provisioning.mem_keys_addProvisions, not_or]
        exact ⟨hne, hk⟩
      · exact hrest q hs hk hk'

theorem appendToFaults_spec (l : List (Channel × List Provision))
    (hl : ∀ e ∈ l, e.1 ≠ .task id) :
    Same id s (l.foldl (appendToFault J) s)
      ∧ (l.foldl (appendToFault J) s).provisioning = s.provisioning := by
  refine ⟨Same.foldl (fun e he s' => Same.appendToFault J (hl e he)) s, ?_⟩
  clear hl
  induction l generalizing s with
  | nil => rfl
  | cons e l ih => exact ih.trans rfl

/-- The provisions of a fault that is retried are the only ones. -/
theorem withProvisions_retry {ps : List Provision} (hapart : Apart E id s)
    (h : s.whiteList E.retryDelay = some (.task id, ps)) :
    s.withProvisions J E = s.clearProvisions.addProvisions J (.task id) ps := by
  have hnone : s.filteredPresets E = [] := by
    rw [List.eq_nil_iff_forall_not_mem]
    intro preset hp
    exact hapart preset hp (filteredPresets_of_whiteList h hp)
  unfold withProvisions withRetry
  rw [h, hnone]
  rfl

theorem withProvisions_other (hapart : Apart E id s)
    (h : ∀ ps, s.whiteList E.retryDelay ≠ some (.task id, ps)) :
    Same id s (s.withProvisions J E)
      ∧ .task id ∉ (s.withProvisions J E).provisioning.channels.keys := by
  obtain ⟨hs, hk⟩ : Same id s (s.withRetry J E.retryDelay)
      ∧ .task id ∉ (s.withRetry J E.retryDelay).provisioning.channels.keys := by
    unfold withRetry
    cases hw : s.whiteList E.retryDelay with
    | none => exact ⟨Same.provisioning id _ _, List.not_mem_nil⟩
    | some w =>
        obtain ⟨c, ps⟩ := w
        refine ⟨Same.provisioning id _ _, ?_⟩
        show _ ∉ (Provisioning.addProvisions _ _ _ _).channels.keys
        rw [Provisioning.mem_keys_addProvisions, not_or]
        refine ⟨?_, List.not_mem_nil⟩
        rintro rfl
        exact h ps hw
  obtain ⟨hs1, hk1, hk2⟩ := addPresets_spec (J := J) (s.blackList E.retryDelay)
    (s.filteredPresets E) hapart (s.withRetry J E.retryDelay, InsMap.empty)
    hs hk List.not_mem_nil
  set q := (s.filteredPresets E).foldl (addPreset J E (s.blackList E.retryDelay))
    (s.withRetry J E.retryDelay, InsMap.empty) with hq
  obtain ⟨hs3, hq3⟩ : Same id q.1 (q.2.entries.foldl (appendToFault J) q.1)
      ∧ (q.2.entries.foldl (appendToFault J) q.1).provisioning = q.1.provisioning :=
    appendToFaults_spec q.2.entries fun e he heq => hk2 (List.mem_map.mpr ⟨e, he, heq⟩)
  unfold withProvisions
  dsimp only
  rw [← hq]
  split
  · exact ⟨hs1.trans hs3, hq3 ▸ hk1⟩
  · refine ⟨(hs1.trans hs3).trans ⟨rfl, List.Sublist.refl _, Iff.rfl, Iff.rfl, rfl⟩, ?_⟩
    exact hq3 ▸ hk1

/-- The task is as before, or its fault is retried. -/
theorem accounted_withProvisions (h : Accounted strict id s history) (hapart : Apart E id s)
    (hdelay : strict → ∀ delay ∈ E.retryDelay, 0 < delay)
    (hk : .task id ∉ s.provisioning.channels.keys) :
    Accounted strict id (s.withProvisions J E) history
      ∧ (.task id ∈ (s.withProvisions J E).provisioning.channels.keys →
        (∃ ps, s.whiteList E.retryDelay = some (.task id, ps))
        ∧ ((s.withProvisions J E).provisioning.provisions ≠ [] →
          (s.withProvisions J E).provisioning.mask (.task id) ≠ 0)) := by
  by_cases hw : ∃ ps, s.whiteList E.retryDelay = some (.task id, ps)
  · obtain ⟨ps, hw⟩ := hw
    obtain ⟨fault, hget, hretry⟩ := whiteList_retryable hw
    have hheld : strict → .faulted (.task id) ∉ history := by
      intro hstrict hmem
      have hlater := Waits.not_retryable (hdelay hstrict) (h.held hstrict hmem).1 hget
      rw [hlater] at hretry
      cases hretry
    have hdone : id ∉ s.doneTasks := by
      intro hdone
      rw [(h.clean hdone).1] at hget
      cases hget
    rw [withProvisions_retry hapart hw]
    have hcleared : Accounted strict id s.clearProvisions history :=
      h.same (Same.provisioning id _ _) hk List.not_mem_nil
    refine ⟨hcleared.start (addProvisions_adds _ _) (fun _ => List.not_mem_nil) hdone hheld, ?_⟩
    refine fun _ => ⟨⟨ps, hw⟩, fun hne => ?_⟩
    apply Provisioning.mask_addProvisions_ne
    rintro rfl
    exact hne rfl
  · rw [not_exists] at hw
    obtain ⟨hs, hk'⟩ := withProvisions_other (J := J) hapart hw
    exact ⟨h.same hs hk hk', fun hmem => absurd hmem hk'⟩

theorem kept_runPresets {retrying : Bool} {answer : Answer} (h : Accounted strict id s history)
    (hmask : .task id ∈ s.provisioning.channels.keys → s.provisioning.provisions ≠ [] →
      s.provisioning.mask (.task id) ≠ 0)
    (hretry : .task id ∈ s.provisioning.channels.keys → rpcRequest s false answer ≠ .complete)
    (hstep : runPresets J E retrying answer s history = some r') : Kept strict id r' := by
  unfold runPresets at hstep
  by_cases hcycles : s.presetCycles > MAX_CYCLES
  · rw [if_pos hcycles] at hstep
    obtain ⟨s', hs', rfl⟩ := Option.map_eq_some_iff.mp hstep
    have hrecorded := recordSessionFault_recorded rfl hs' (.task id)
    refine Kept.idle ?_ List.not_mem_nil (fun heq => nomatch heq)
    have hlater := (h.recorded hrecorded).deleteRetryNow
    exact hlater.same (Same.provisioning id _ _) (recorded_keys hrecorded _) List.not_mem_nil
  · rw [if_neg hcycles] at hstep
    dsimp only at hstep
    split at hstep
    · obtain ⟨s', hs', rfl⟩ := Option.map_eq_some_iff.mp hstep
      have hrecorded := recordAnswer_recorded hs' (.task id)
      refine Kept.idle ?_ (recorded_keys hrecorded _) (fun heq => nomatch heq)
      exact h.running.recorded hrecorded
    · rename_i hrequest
      obtain rfl := Option.some.inj hstep
      have hserved := rpcRequest_request hrequest
      refine ⟨h.running, fun _ => ⟨rfl, Or.inr rfl⟩, ?_, fun _ => hserved⟩
      intro hk _
      exact hmask hk (hserved.resolve_right Bool.false_ne_true)
    · rename_i hcomplete
      obtain rfl := Option.some.inj hstep
      have hk : .task id ∉ s.provisioning.channels.keys := fun hk => hretry hk hcomplete
      have hs : Same id s (s.provisioning.channels.keys.foldl dropFault s) := by
        refine Same.foldl (fun c hc s' => Same.dropFault ?_) s
        rintro rfl
        exact hk hc
      have hk' : .task id
          ∉ (s.provisioning.channels.keys.foldl dropFault s).provisioning.channels.keys := by
        rw [dropFaults_provisioning]
        exact hk
      refine Kept.idle (h.running.same hs hk hk') hk' ?_
      show (if retrying || E.dirty then Control.applyPresets else .closing) ≠ .sent
      split_ifs <;> exact fun heq => nomatch heq

end

/-! ## Steps -/

/-- No preset that passes is on the channel of the task, and the retry of its
fault is not completed without a request. -/
def Retries (J : Js) (id : String) (r : SessionRun) : Action → Prop
  | .applyPresets E fetched answer =>
      Apart E id r.context
      ∧ ∀ ps, r.context.whiteList E.retryDelay = some (.task id, ps) →
        rpcRequest (r.context.markPresets E) (r.context.declares E) fetched = .complete →
        rpcRequest (r.context.withProvisions J E) false answer ≠ .complete
  | _ => True

/-- The setting `cwmp.retryDelay` is positive where it is read. -/
def Delayed : Action → Prop
  | .applyPresets E _ _ => ∀ delay ∈ E.retryDelay, 0 < delay
  | _ => True

section

variable {strict : Prop} {id : String} {r r' : SessionRun} {J : Js}

theorem kept_applyPresets {E : Surroundings} {fetched answer : Answer} (h : Kept strict id r)
    (hcontrol : r.control = .applyPresets) (hretries : Retries J id r (.applyPresets E fetched answer))
    (hdelay : strict → ∀ delay ∈ E.retryDelay, 0 < delay)
    (hstep : applyPresets J E fetched answer r = some r') : Kept strict id r' := by
  obtain ⟨hapart, hretry⟩ := hretries
  have hk := h.not_running hcontrol (fun heq => nomatch heq) (fun heq => nomatch heq)
  obtain ⟨q, hmarked, hq⟩ := markPresets_spec hapart hk
  have hmarks : Accounted strict id (r.context.markPresets E) r.history := by
    rw [hmarked]
    exact h.accounted.same (Same.provisioning id _ q) hk hq
  have hkm : .task id ∉ (r.context.markPresets E).provisioning.channels.keys := by
    rw [hmarked]
    exact hq
  unfold applyPresets at hstep
  dsimp only at hstep
  split at hstep
  · obtain ⟨s', hs', rfl⟩ := Option.map_eq_some_iff.mp hstep
    have hrecorded := recordAnswer_recorded hs' (.task id)
    refine Kept.idle ?_ (recorded_keys hrecorded _) (fun heq => nomatch heq)
    exact hmarks.recorded hrecorded
  · rename_i hrequest
    obtain rfl := Option.some.inj hstep
    exact ⟨hmarks, fun hmem => absurd hmem hkm, fun hmem => absurd hmem hkm,
      fun _ => rpcRequest_request hrequest⟩
  · rename_i hfetched
    obtain ⟨hadded, hrun⟩ := accounted_withProvisions (J := J) h.accounted hapart hdelay hk
    refine kept_runPresets hadded (fun hk => (hrun hk).2) ?_ hstep
    intro hk
    obtain ⟨ps, hw⟩ := (hrun hk).1
    exact hretry ps hw hfetched

theorem kept_respond {fault : Option (String × String)} (h : Kept strict id r)
    (hstep : respond J fault r = some r') : Kept strict id r' := by
  cases fault with
  | none =>
      obtain rfl := Option.some.inj hstep
      exact ⟨h.accounted, fun hk => ⟨(h.placed hk).1, Or.inl rfl⟩, h.flagged,
        fun heq => nomatch heq⟩
  | some fault =>
      obtain ⟨s', hs', rfl⟩ := Option.map_eq_some_iff.mp hstep
      have hrecorded := charge_recorded rfl hs' (.task id)
      refine Kept.idle ?_ (recorded_keys hrecorded _) (fun heq => nomatch heq)
      exact h.accounted.recorded hrecorded

/-- A task that runs when the connection is lost has provisions, so it is
charged. -/
theorem kept_endSession (h : Kept strict id r)
    (hplace : .task id ∈ r.context.provisioning.channels.keys → r.control = .sent)
    (hstep : endSession J r = some r') :
    Kept strict id r' := by
  unfold endSession at hstep
  split at hstep
  · rename_i hnil
    rw [List.isEmpty_iff] at hnil
    obtain rfl := Option.some.inj hstep
    have hk : .task id ∉ r.context.provisioning.channels.keys := by
      intro hk
      obtain ⟨hdeclared, -⟩ := h.placed hk
      rcases h.served (hplace hk) with hne | htrue
      · exact hne hnil
      · rw [hdeclared] at htrue
        cases htrue
    exact Kept.idle h.accounted hk (fun heq => nomatch heq)
  · obtain ⟨s', hs', rfl⟩ := Option.map_eq_some_iff.mp hstep
    have hrecorded := recordSessionFault_recorded rfl hs' (.task id)
    refine Kept.idle ?_ (recorded_keys hrecorded _) (fun heq => nomatch heq)
    exact (h.accounted.recorded hrecorded).deleteRetryNow

/-- The step lemma. -/
theorem kept_step {a : Action} (h : Kept strict id r) (hretries : Retries J id r a)
    (hdelay : strict → Delayed a) (hstep : step J r a = some r') : Kept strict id r' := by
  unfold step at hstep
  split at hstep
  · exact kept_nextRpc h hstep
  · rename_i hcontrol
    exact kept_applyPresets h hcontrol hretries hdelay hstep
  · exact kept_respond h hstep
  · rename_i hcontrol
    exact kept_endSession h (fun _ => hcontrol) hstep
  · rename_i hcontrol
    obtain rfl := Option.some.inj hstep
    have hk := h.not_running hcontrol (fun heq => nomatch heq) (fun heq => nomatch heq)
    refine Kept.idle ?_ List.not_mem_nil (fun heq => nomatch heq)
    exact h.accounted.same (Same.provisioning id _ _) hk List.not_mem_nil
  · rename_i hcontrol
    have hk := h.not_running hcontrol (fun heq => nomatch heq) (fun heq => nomatch heq)
    exact kept_endSession h (fun hmem => absurd hmem hk) hstep
  · cases hstep

end

/-! ## Runs -/

/-- A session before its first call of `nextRpc`, with the due tasks. -/
structure Fresh (r : SessionRun) : Prop where
  ids : (r.context.tasks.map Task.id).Nodup
  provisioning : r.context.provisioning = Provisioning.clearProvisions
  doneTasks : r.context.doneTasks = []
  declared : r.declared = false
  control : r.control = .nextRpc
  history : r.history = []

/-- A task is done and has left no fault, or it has a fault and is not done. -/
def Settled (s : SessionContext Provision) (id : String) : Prop :=
  id ∈ s.doneTasks ∧ s.faults.get? (.task id) = none
    ∨ (s.faults.get? (.task id)).isSome ∧ id ∉ s.doneTasks

/-- A step whose action meets a condition in the state before it. -/
def StepWith (J : Js) (ok : SessionRun → Action → Prop) (r r' : SessionRun) : Prop :=
  ∃ a, ok r a ∧ step J r a = some r'

/-- A run by its actions. -/
def runActions (J : Js) : SessionRun → List Action → Option SessionRun
  | r, [] => some r
  | r, a :: as => (step J r a).bind fun r' => runActions J r' as

/-- Every action meets the condition in the state it is taken in. -/
def AllMeet (J : Js) (ok : SessionRun → Action → Prop) : SessionRun → List Action → Prop
  | _, [] => True
  | r, a :: as => ok r a ∧ ∀ r', step J r a = some r' → AllMeet J ok r' as

theorem reachable_runActions {J : Js} {ok : SessionRun → Action → Prop} {start : SessionRun}
    (as : List Action) :
    ∀ {r r' : SessionRun}, Reachable (· = start) (StepWith J ok) r → AllMeet J ok r as →
      runActions J r as = some r' → Reachable (· = start) (StepWith J ok) r' := by
  induction as with
  | nil =>
      intro r r' hreach _ hrun
      obtain rfl := Option.some.inj hrun
      exact hreach
  | cons a as ih =>
      intro r r' hreach hmeet hrun
      obtain ⟨r1, hstep, hrest⟩ := Option.bind_eq_some_iff.mp hrun
      exact ih (hreach.step ⟨a, hmeet.1, hstep⟩) (hmeet.2 r1 hstep) hrest

/-- What the end of a session says about a task. -/
structure Outcome (id : String) (r : SessionRun) : Prop where
  settled : r.control = .ended → .ran (.task id) ∈ r.history → Settled r.context id
  faulted : lastEvent (.task id) r.history = some (.faulted (.task id)) →
    id ∉ r.context.doneTasks

section

variable {strict : Prop} {J : Js} {start r : SessionRun}

theorem kept_start (hfresh : Fresh start) {t : Task Provision} (ht : t ∈ start.context.tasks)
    (hlive : Task.expired start.context.timestamp t = false) : Kept strict t.id start := by
  have hk : .task t.id ∉ start.context.provisioning.channels.keys := by
    rw [hfresh.provisioning]
    exact List.not_mem_nil
  refine Kept.idle ?_ hk (by rw [hfresh.control]; exact fun heq => nomatch heq)
  have hdone : t.id ∉ start.context.doneTasks := by
    rw [hfresh.doneTasks]
    exact List.not_mem_nil
  refine ⟨hfresh.ids, ?_, ?_, fun hmem => absurd hmem hdone, fun hmem => absurd hmem hk, ?_, ?_, ?_⟩
  · intro u hu heq
    obtain rfl := List.inj_on_of_nodup_map hfresh.ids hu ht heq
    exact hlive
  · exact iff_of_true (List.mem_map_of_mem ht) hdone
  · rw [hfresh.history]
    exact fun hmem => absurd hmem List.not_mem_nil
  · rw [hfresh.history]
    exact fun heq => nomatch heq
  · rw [hfresh.history]
    exact fun _ hmem => absurd hmem List.not_mem_nil

theorem Kept.doneTasks {id : String} (h : Kept strict id r)
    (hfault : (r.context.faults.get? (.task id)).isSome) : id ∉ r.context.doneTasks := by
  intro hdone
  rw [(h.accounted.clean hdone).1] at hfault
  cases hfault

theorem Kept.outcome {id : String} (h : Kept strict id r) : Outcome id r where
  settled hcontrol hran := by
    rcases h.accounted.ran hran with hdone | hfault | hk
    · exact Or.inl ⟨hdone, (h.accounted.clean hdone).1⟩
    · exact Or.inr ⟨hfault, h.doneTasks hfault⟩
    · have hidle := h.not_running hcontrol (fun heq => nomatch heq) (fun heq => nomatch heq)
      exact absurd hk hidle
  faulted hlast := h.doneTasks (h.accounted.faulted hlast)

/-- While every step retries as it should, what has run is settled at the end,
and a task whose last run faulted is not done. If the retries have to wait, a
task that has faulted in the session is not done. -/
theorem tasks_settled (J : Js) (start : SessionRun) (hfresh : Fresh start) (t : Task Provision)
    (ht : t ∈ start.context.tasks) (hlive : Task.expired start.context.timestamp t = false) :
    (∀ r, Reachable (· = start)
        (StepWith J fun r a => ∀ u ∈ start.context.tasks, Retries J u.id r a) r →
      Outcome t.id r)
    ∧ ∀ r, Reachable (· = start)
        (StepWith J fun r a => (∀ u ∈ start.context.tasks, Retries J u.id r a) ∧ Delayed a) r →
      .faulted (.task t.id) ∈ r.history → t.id ∉ r.context.doneTasks := by
  constructor
  · intro r hreach
    have hkept : Kept False t.id r := by
      refine Reachable.invariant ?_ ?_ hreach
      · rintro _ rfl
        exact kept_start hfresh ht hlive
      · rintro r r' h ⟨a, hretries, hstep⟩
        exact kept_step h (hretries t ht) False.elim hstep
    exact hkept.outcome
  · intro r hreach hmem
    have hkept : Kept True t.id r := by
      refine Reachable.invariant ?_ ?_ hreach
      · rintro _ rfl
        exact kept_start hfresh ht hlive
      · rintro r r' h ⟨a, ⟨hretries, hdelay⟩, hstep⟩
        exact kept_step h (hretries t ht) (fun _ => hdelay) hstep
    exact hkept.doneTasks (hkept.accounted.held trivial hmem).1.isSome

end

/-! ## A task that is tagged on the device's record -/

/-- A task that needs nothing of the CPE. -/
def tagging : Task Provision where
  id := "65f0"
  name := "provisions"
  provisions := [⟨js "tag", [.string (js "x"), .lit (some (.bool true))]⟩]

/-- No presets, and retries after five minutes. -/
def quiet : Surroundings where
  presets := []
  retryDelay := some 300
  deviceEvents := []
  extractParams _ := []
  evaluate e := e
  dirty := false

/-- The task is due; its session of the day before was cut off. -/
def nextDay : SessionRun where
  context :=
    { timestamp := 86400000
      tasks := [tagging]
      faults := InsMap.empty.set (.task "65f0")
        { code := "session_terminated"
          message := ""
          timestamp := 0
          provisions := tagging.provisions }
      retries := InsMap.empty.set (.task "65f0") 0 }

theorem fresh_nextDay : Fresh nextDay :=
  ⟨List.nodup_singleton _, rfl, rfl, rfl, rfl, rfl⟩

/-- The retry needs a request, which the CPE answers. -/
theorem tasks_settled_tagging :
    (∀ r, Reachable (· = nextDay)
        (StepWith idleJs fun r a => ∀ u ∈ nextDay.context.tasks, Retries idleJs u.id r a) r →
      Outcome "65f0" r)
    ∧ ∀ r, Reachable (· = nextDay)
        (StepWith idleJs fun r a =>
          (∀ u ∈ nextDay.context.tasks, Retries idleJs u.id r a) ∧ Delayed a) r →
      .faulted (.task "65f0") ∈ r.history → "65f0" ∉ r.context.doneTasks :=
  tasks_settled idleJs nextDay fresh_nextDay tagging (List.mem_singleton_self _) rfl

/-- The retry is completed without a request: its fault is gone, and the task
is not done. -/
theorem tasks_unsettled : ∃ r, Reachable (· = nextDay) (StepWith idleJs fun _ _ => True) r
    ∧ r.control = .ended ∧ .ran (.task "65f0") ∈ r.history ∧ ¬ Settled r.context "65f0" := by
  have hrun : ((runActions idleJs nextDay
      [.nextRpc .complete, .applyPresets quiet .complete .complete,
        .applyPresets quiet .complete .complete, .close]).map fun r =>
      (r.control, r.history, r.context.doneTasks, r.context.faults.get? (.task "65f0") |>.isSome))
      = some (.ended, [.ran (.task "65f0")], [], false) := by
    decide +kernel
  obtain ⟨r, hr, heq⟩ := Option.map_eq_some_iff.mp hrun
  simp only [Prod.mk.injEq] at heq
  obtain ⟨hcontrol, hhistory, hdone, hfault⟩ := heq
  refine ⟨r, reachable_runActions _ (Reachable.init rfl) ?_ hr, hcontrol, ?_, ?_⟩
  · exact ⟨trivial, fun _ _ => ⟨trivial, fun _ _ => ⟨trivial, fun _ _ => ⟨trivial, fun _ _ =>
      trivial⟩⟩⟩⟩
  · rw [hhistory]
    exact List.mem_singleton_self _
  · rintro (⟨hmem, -⟩ | ⟨hsome, -⟩)
    · rw [hdone] at hmem
      exact absurd hmem List.not_mem_nil
    · rw [hfault] at hsome
      cases hsome

end SessionRun

end GenieAcs
