import GenieAcs.SessionChanges
import GenieAcs.StoredFaults

/-!
# Faults and tasks that expire

A fault of a task has the expiry of the task, from the session that records it on
(`linked_step`). A later session discards the task once that date has come, and the
fault until then: the comparison is the other way round. So the two agree only at the
very date (`expire_together_iff`).
-/

namespace GenieAcs

open SessionContext SessionRun

/-! ## Within a session -/

section

variable {s s' : SessionContext Provision} {J : Js} {t : Task Provision} {e : Nat} {r r' : SessionRun}

/-- The task is the only one with its id, and as long as it is there a fault of its
channel has its expiry. -/
structure Carried (t : Task Provision) (s : SessionContext Provision) : Prop where
  unique : ∀ u ∈ s.tasks, u.id = t.id → u = t
  fault : t ∈ s.tasks → ∀ f, s.faults.get? (.task t.id) = some f → f.expiry = t.expiry

def Pending (t : Task Provision) (s : SessionContext Provision) : Prop :=
  t ∈ s.tasks ∨ t.id ∈ s.doneTasks

theorem Sheds.pending_of (h : Sheds s s') (hp : Pending t s) : Pending t s' := by
  rcases hp with ht | hdone
  · exact h.pending t ht
  · exact Or.inr (h.doneTasks hdone)

theorem Sheds.carried (h : Sheds s s') (hc : Carried t s) : Carried t s' where
  unique u hu := hc.unique u (h.tasks.subset hu)
  fault ht f' hf' := by
    obtain ⟨f, hf, heq⟩ := h.faults _ f' hf'
    rw [heq]
    exact hc.fault (h.tasks.subset ht) f hf

/-- What recording does, if the channel of the task is among those that run or its fault
is as it should be. -/
theorem carried_of_records {fault : Fault}
    (h : recordSessionFault (Provision.text J) s fault = some s')
    (hunique : ∀ u ∈ s.tasks, u.id = t.id → u = t) (hexpiry : t.expiry = some e) (he : e ≠ 0)
    (hc : .task t.id ∈ s.provisioning.channels.keys ∨ Carried t s) : Carried t s' := by
  have htasks := (recorded_tasks h).tasks
  refine ⟨fun u hu => hunique u (htasks ▸ hu), ?_⟩
  intro ht f hf
  rw [htasks] at ht
  by_cases hkey : Channel.task t.id ∈ s.provisioning.channels.keys
  · have hexpiries : ∀ u ∈ s.tasks, u.id = t.id → u.expiry = some e := by
      intro u hu hid
      rw [hunique u hu hid, hexpiry]
    obtain ⟨f', hf', hcopied⟩ := recorded_expiry h ht hexpiries he hkey
    obtain rfl := Option.some.inj (hf.symm.trans hf')
    exact hcopied.trans hexpiry.symm
  · rw [recorded_outside h hkey] at hf
    exact (hc.resolve_left hkey).fault ht f hf

/-- A step charges the channel of a task that is there. -/
def Faults (J : Js) (t : Task Provision) (r r' : SessionRun) : Prop :=
  t ∈ r.context.tasks ∧ (∃ a, step J r a = some r') ∧
    ∃ events, r'.history = events ++ r.history ∧ .faulted (.task t.id) ∈ events

/-- The fault is recorded in this session, or it was loaded. -/
structure Held (t : Task Provision) (s : SessionContext Provision) : Prop where
  carried : Carried t s
  pending : Pending t s

theorem held_step {a : Action} (h : Held t r.context) (hexpiry : t.expiry = some e) (he : e ≠ 0)
    (hstep : step J r a = some r') : Held t r'.context := by
  cases change_step hstep with
  | sheds events _ _ hsheds => exact ⟨hsheds.carried h.carried, hsheds.pending_of h.pending⟩
  | records s s' fault events _ _ hbefore htasks hrecord hafter =>
      have hcarried := hbefore.carried h.carried
      have hsame := recorded_tasks hrecord
      have hpending : Pending t s' := by
        rw [Pending, hsame.tasks, hsame.doneTasks]
        exact hbefore.pending_of h.pending
      refine ⟨hafter.carried ?_, hafter.pending_of hpending⟩
      exact carried_of_records hrecord hcarried.unique hexpiry he (Or.inr hcarried)

theorem touched_step {a : Action} (hstep : step J r a = some r') :
    r.context.faultsTouched ⊆ r'.context.faultsTouched := by
  cases change_step hstep with
  | sheds events _ _ hsheds => exact hsheds.touched
  | records s s' fault events _ _ hbefore htasks hrecord hafter =>
      exact List.Subset.trans (List.Subset.trans hbefore.touched (recorded_touched hrecord).2) hafter.touched

/-- The step that charges the channel. -/
theorem held_of_faults (hunique : ∀ u ∈ r.context.tasks, u.id = t.id → u = t)
    (hexpiry : t.expiry = some e) (he : e ≠ 0) (h : Faults J t r r') :
    Held t r'.context ∧ .task t.id ∈ r'.context.faultsTouched := by
  obtain ⟨ht, ⟨a, hstep⟩, events, hhistory, hmem⟩ := h
  cases change_step hstep with
  | sheds events' hhistory' hnone _ =>
      rw [hhistory] at hhistory'
      obtain rfl := List.append_cancel_right hhistory'
      exact absurd hmem (hnone _)
  | records s s' fault events' hhistory' hkeys hbefore htasks hrecord hafter =>
      rw [hhistory] at hhistory'
      obtain rfl := List.append_cancel_right hhistory'
      have hkey := hkeys _ hmem
      have hpending : Pending t s' := by
        rw [Pending, (recorded_tasks hrecord).tasks, htasks]
        exact Or.inl ht
      refine ⟨⟨hafter.carried ?_, hafter.pending_of hpending⟩, ?_⟩
      · exact carried_of_records hrecord (htasks ▸ hunique) hexpiry he (Or.inl hkey)
      · exact hafter.touched ((recorded_touched hrecord).1 _ hkey)

end

/-! ## From one session to the next -/

/-- The open session has due tasks of the store, and no id twice. -/
structure Loaded (d : DeviceState) (r : SessionRun) : Prop where
  timestamp : r.context.timestamp = d.now
  nodup : (r.context.tasks.map Task.id).Nodup
  used : ∀ u ∈ r.context.tasks, u.id ∈ d.store.used
  stored : ∀ u ∈ r.context.tasks, ∀ t ∈ d.store.tasks, t.task.id = u.id →
    t.task = u ∧ t.timestamp < d.now

def WellFormed (d : DeviceState) : Prop := ∀ r, d.session = some r → Loaded d r

/-- The stored fault of the channel of a task, if there is one, has its expiry. -/
def SameExpiry (t : StoredTask) (store : Store) : Prop :=
  ∀ v, store.faults.get? (.task t.task.id) = some v → v.expiry = t.task.expiry

/-- As long as the task is stored, its fault has its expiry: in the store or, if the
session will write it, in the session. -/
structure Linked (t : StoredTask) (d : DeviceState) : Prop where
  used : t.task.id ∈ d.store.used
  due : t ∈ d.store.tasks → t.timestamp < d.now
  idle : t ∈ d.store.tasks → d.session = none → SameExpiry t d.store
  busy : t ∈ d.store.tasks → ∀ r, d.session = some r → Held t.task r.context ∧
    (SameExpiry t d.store ∨ .task t.task.id ∈ r.context.faultsTouched)

section

variable {J : Js} {d d' : DeviceState} {r r' : SessionRun} {t : StoredTask} {e : Nat}

theorem step_tasks {a : Action} (h : step J r a = some r') :
    r'.context.timestamp = r.context.timestamp ∧ r'.context.tasks.Sublist r.context.tasks := by
  cases change_step h with
  | sheds events _ _ hsheds => exact ⟨hsheds.timestamp, hsheds.tasks⟩
  | records s s' fault events _ _ hbefore htasks hrecord hafter =>
      have hsame := recorded_tasks hrecord
      refine ⟨hafter.timestamp.trans (hsame.timestamp.trans hbefore.timestamp), ?_⟩
      rw [← htasks, ← hsame.tasks]
      exact hafter.tasks

/-- Tasks that are stored later have been stored before, or are new. -/
theorem stored_step (h : DeviceStep J d d') :
    d.store.used ⊆ d'.store.used ∧ d.now ≤ d'.now ∧
      ∀ t ∈ d'.store.tasks, t.task.id ∈ d.store.used → t ∈ d.store.tasks := by
  cases h with
  | begin _ htime => exact ⟨List.Subset.refl _, htime, fun _ ht _ => ht⟩
  | act a _ _ => exact ⟨List.Subset.refl _, le_rfl, fun _ ht _ => ht⟩
  | finish _ _ => exact ⟨List.Subset.refl _, le_rfl, fun _ ht _ => List.mem_of_mem_filter ht⟩
  | insertTask u hu =>
      refine ⟨List.subset_cons_self _ _, le_rfl, ?_⟩
      intro t ht hused
      refine (List.mem_append.mp ht).resolve_right fun hlast => ?_
      rw [List.mem_singleton.mp hlast] at hused
      exact hu hused
  | deleteTask id => exact ⟨List.Subset.refl _, le_rfl, fun _ ht _ => List.mem_of_mem_filter ht⟩
  | deleteFault c => exact ⟨List.Subset.refl _, le_rfl, fun _ ht _ => List.mem_of_mem_filter ht⟩

/-- The store may change while a session is open. -/
theorem Loaded.store {store : Store} (h : Loaded d r) (hused : d.store.used ⊆ store.used)
    (hstored : ∀ t ∈ store.tasks, t.task.id ∈ d.store.used → t ∈ d.store.tasks) :
    Loaded { d with store } r where
  timestamp := h.timestamp
  nodup := h.nodup
  used u hu := hused (h.used u hu)
  stored u hu t ht hid := h.stored u hu t (hstored t ht (hid ▸ h.used u hu)) hid

theorem wellFormed_step (h : WellFormed d) (hstep : DeviceStep J d d') : WellFormed d' := by
  obtain ⟨hused, -, hstored⟩ := stored_step hstep
  cases hstep with
  | @begin timestamp hnone htime =>
      rintro r hr
      obtain rfl := Option.some.inj hr
      obtain ⟨htimestamp, htasks, -⟩ := Store.setup_same d.store timestamp
      refine ⟨htimestamp, ?_, ?_, ?_⟩
      · dsimp only
        rw [htasks]
        exact Store.nodup_getDueTasks d.store timestamp
      · intro u hu
        dsimp only at hu
        rw [htasks, Store.mem_getDueTasks] at hu
        obtain ⟨t, ht, -, rfl⟩ := hu
        exact d.store.tasks_used t ht
      · intro u hu t ht hid
        dsimp only at hu
        rw [htasks, Store.mem_getDueTasks] at hu
        obtain ⟨t', ht', hdue, rfl⟩ := hu
        obtain rfl := Store.task_unique ht ht' hid
        exact ⟨rfl, hdue⟩
  | act a hs hact =>
      intro r' hr'
      obtain rfl := Option.some.inj hr'
      have hloaded := h _ hs
      obtain ⟨htime, htasks⟩ := step_tasks hact
      exact ⟨htime.trans hloaded.timestamp, hloaded.nodup.sublist (htasks.map _),
        fun u hu => hloaded.used u (htasks.subset hu),
        fun u hu => hloaded.stored u (htasks.subset hu)⟩
  | finish _ _ => exact fun r hr => nomatch hr
  | insertTask u hu => exact fun r hr => (h r hr).store hused hstored
  | deleteTask id => exact fun r hr => (h r hr).store hused hstored
  | deleteFault c => exact fun r hr => (h r hr).store hused hstored

/-- A session begins with the expiry that is stored. -/
theorem held_setup {timestamp : Nat} (h : SameExpiry t d.store) (ht : t ∈ d.store.tasks)
    (hdue : t.timestamp < timestamp) : Held t.task (d.store.setup timestamp) := by
  obtain ⟨-, htasks, -⟩ := Store.setup_same d.store timestamp
  have hmem : t.task ∈ (d.store.setup timestamp).tasks := by
    rw [htasks, Store.mem_getDueTasks]
    exact ⟨t, ht, hdue, rfl⟩
  refine ⟨⟨?_, ?_⟩, Or.inl hmem⟩
  · intro u hu hid
    rw [htasks, Store.mem_getDueTasks] at hu
    obtain ⟨u', hu', -, rfl⟩ := hu
    rw [Store.task_unique hu' ht hid]
  · intro _ f hf
    obtain ⟨v, hv, hload⟩ := Store.setup_fault hf
    obtain rfl := Option.some.inj hload
    exact h v hv

/-- What a session writes. -/
theorem sameExpiry_save (hexpiry : t.task.expiry = some e) (he : e ≠ 0)
    (hheld : Held t.task r.context)
    (h : SameExpiry t d.store ∨ .task t.task.id ∈ r.context.faultsTouched)
    (ht : t ∈ (d.store.save r.context).tasks) : SameExpiry t (d.store.save r.context) := by
  have hdone : t.task.id ∉ r.context.doneTasks := of_decide_eq_true (List.mem_filter.mp ht).2
  intro v hv
  rw [Store.save, Store.keep, Store.get?_saved] at hv
  split_ifs at hv with htouched
  · obtain ⟨f, hf, rfl⟩ := Option.map_eq_some_iff.mp hv
    have hcopied := hheld.carried.fault (hheld.pending.resolve_right hdone) f hf
    rw [Store.savedFault, hcopied, hexpiry]
    simp [he]
  · exact h.resolve_right htouched v hv

theorem SameExpiry.erase {c : Channel} (h : SameExpiry t d.store) :
    SameExpiry t (d.store.deleteFault c) := by
  intro v hv
  rw [Store.deleteFault, Store.keep, InsMap.get?_erase] at hv
  split_ifs at hv
  exact h v hv

/-- The step lemma of a device. -/
theorem linked_step (h : Linked t d) (hexpiry : t.task.expiry = some e) (he : e ≠ 0)
    (hstep : DeviceStep J d d') : Linked t d' := by
  obtain ⟨hused, htime, hstored⟩ := stored_step hstep
  have hkept : t ∈ d'.store.tasks → t ∈ d.store.tasks := fun ht => hstored t ht h.used
  refine ⟨hused h.used, fun ht => (h.due (hkept ht)).trans_le htime, ?_, ?_⟩
  · intro ht hnone
    cases hstep with
    | begin _ _ => cases hnone
    | act _ _ _ => cases hnone
    | finish hs hended =>
        obtain ⟨hheld, hsame⟩ := h.busy (hkept ht) _ hs
        exact sameExpiry_save hexpiry he hheld hsame ht
    | insertTask u hu => exact h.idle (hkept ht) hnone
    | deleteTask id => exact h.idle (hkept ht) hnone
    | deleteFault c => exact (h.idle (hkept ht) hnone).erase
  · intro ht r hr
    cases hstep with
    | begin hnone hle =>
        obtain rfl := Option.some.inj hr
        have hsame := h.idle ht hnone
        exact ⟨held_setup hsame ht ((h.due ht).trans_le hle), Or.inl hsame⟩
    | act a hs hact =>
        obtain rfl := Option.some.inj hr
        obtain ⟨hheld, hsame⟩ := h.busy ht _ hs
        exact ⟨held_step hheld hexpiry he hact, hsame.imp id fun htouched => touched_step hact htouched⟩
    | insertTask u hu => exact h.busy (hkept ht) r hr
    | deleteTask id => exact h.busy (hkept ht) r hr
    | deleteFault c =>
        obtain ⟨hheld, hsame⟩ := h.busy (hkept ht) r hr
        exact ⟨hheld, hsame.imp SameExpiry.erase id⟩
    | finish _ _ => cases hr

theorem linked_run (h : Linked t d) (hexpiry : t.task.expiry = some e) (he : e ≠ 0)
    (hrun : Relation.ReflTransGen (DeviceStep J) d d') : Linked t d' := by
  induction hrun with
  | refl => exact h
  | tail _ hstep ih => exact linked_step ih hexpiry he hstep

/-- A step of the session charges the channel of the task. -/
theorem linked_of_faults (h : WellFormed d) (hexpiry : t.task.expiry = some e) (he : e ≠ 0)
    (hs : d.session = some r) (hfault : Faults J t.task r r') :
    Linked t { d with session := some r' } := by
  have hloaded := h r hs
  have hunique : ∀ u ∈ r.context.tasks, u.id = t.task.id → u = t.task :=
    fun u hu hid => List.inj_on_of_nodup_map hloaded.nodup hu hfault.1 hid
  obtain ⟨hheld, htouched⟩ := held_of_faults hunique hexpiry he hfault
  refine ⟨hloaded.used t.task hfault.1, ?_, ?_, ?_⟩
  · exact fun ht => (hloaded.stored t.task hfault.1 t ht rfl).2
  · intro _ hnone
    cases hnone
  · intro _ r₁ hr₁
    obtain rfl := Option.some.inj hr₁
    exact ⟨hheld, Or.inr htouched⟩

end

/-! ## A task that has expired without a fault -/

/-- The task is over, and nothing runs on its channel. -/
structure Shut (id : String) (s : SessionContext Provision) : Prop where
  channel : .task id ∉ s.provisioning.channels.keys
  fault : s.faults.get? (.task id) = none
  expired : ∀ u ∈ s.tasks, u.id = id → Task.expired s.timestamp u = true

/-- No preset that passes is on the channel of the task. -/
def Spares (id : String) (r : SessionRun) : Action → Prop
  | .applyPresets E _ _ => Apart E id r.context
  | _ => True

section

variable {s s' : SessionContext Provision} {J : Js} {E : Surroundings} {id : String}
  {r r' : SessionRun}

theorem Sheds.shut (h : Sheds s s') (hs : Shut id s)
    (hk : .task id ∉ s'.provisioning.channels.keys) : Shut id s' where
  channel := hk
  fault := by
    rw [Option.eq_none_iff_forall_ne_some]
    intro f' hf'
    obtain ⟨f, hf, -⟩ := h.faults _ f' hf'
    rw [hs.fault] at hf
    cases hf
  expired u hu hid := by
    rw [h.timestamp]
    exact hs.expired u (h.tasks.subset hu) hid

theorem recorded_cleared {fault : Fault}
    (h : recordSessionFault (Provision.text J) s fault = some s') :
    s'.provisioning = Provisioning.clearProvisions := by
  unfold recordSessionFault recordFault at h
  split_ifs at h
  obtain rfl := Option.some.inj h
  rfl

theorem shut_of_records {fault : Fault} (hs : Shut id s)
    (h : recordSessionFault (Provision.text J) s fault = some s') : Shut id s' where
  channel := by
    rw [recorded_cleared h]
    exact List.not_mem_nil
  fault := by rw [recorded_outside h hs.channel, hs.fault]
  expired := by
    obtain ⟨htime, htasks, -⟩ := recorded_tasks h
    rw [htime, htasks]
    exact hs.expired

theorem shut_charge {fault : Fault} (hs : Shut id s) (h : s.charge J fault = some s') :
    Shut id s' := by
  obtain ⟨s₁, hs₁, rfl⟩ := Option.map_eq_some_iff.mp h
  exact (sheds_clearProvisions s₁).shut (shut_of_records hs hs₁) List.not_mem_nil

/-- The next task is not one that has expired. -/
theorem shut_takeTask (hs : Shut id r.context) : Shut id (takeTask J r).context := by
  refine (takeTask_sheds r).shut hs ?_
  set s₁ := (r.context.provisioning.channels.entries.foldl completeChannel r.context).clearProvisions
    with hs₁
  have hempty : .task id ∉ s₁.clearExpired.provisioning.channels.keys := by
    rw [clearExpired_provisioning]
    exact List.not_mem_nil
  have hcompleted : Sheds r.context s₁ :=
    (Sheds.foldl (fun e _ s => Sheds.completeChannel s e) r.context).trans (sheds_clearProvisions _)
  unfold takeTask
  dsimp only
  rw [← hs₁]
  split
  · exact hempty
  · rename_i t hfind
    split
    · rename_i s' hs'
      obtain ⟨q, rfl, hkeys⟩ := startTask_adds hs'
      rw [hkeys, not_or]
      refine ⟨fun heq => ?_, hempty⟩
      obtain ⟨hmem, hlive⟩ := mem_clearExpired.mp (List.mem_of_find?_eq_some hfind)
      rw [hcompleted.timestamp,
        hs.expired t (hcompleted.tasks.subset hmem) (Channel.task.inj heq).symm] at hlive
      cases hlive
    · exact hempty

theorem shut_nextRpc {answer : Answer} (hs : Shut id r.context)
    (h : nextRpc J answer r = some r') : Shut id r'.context := by
  unfold nextRpc at h
  split at h
  · obtain ⟨s', hs', rfl⟩ := Option.map_eq_some_iff.mp h
    exact shut_charge hs hs'
  · obtain rfl := Option.some.inj h
    exact hs
  · obtain rfl := Option.some.inj h
    exact shut_takeTask hs

theorem shut_runPresets {retrying : Bool} {answer : Answer} {history : List ChannelEvent}
    (hs : Shut id s) (h : runPresets J E retrying answer s history = some r') :
    Shut id r'.context := by
  unfold runPresets at h
  by_cases hcycles : s.presetCycles > MAX_CYCLES
  · rw [if_pos hcycles] at h
    obtain ⟨s', hs', rfl⟩ := Option.map_eq_some_iff.mp h
    exact ((sheds_deleteRetryNow s').trans (sheds_clearProvisions _)).shut
      (shut_of_records hs hs') List.not_mem_nil
  · rw [if_neg hcycles] at h
    dsimp only at h
    split at h
    · obtain ⟨s', hs', rfl⟩ := Option.map_eq_some_iff.mp h
      exact shut_charge hs hs'
    · obtain rfl := Option.some.inj h
      exact hs
    · obtain rfl := Option.some.inj h
      refine (Sheds.foldl (fun c _ s => Sheds.dropFault s c) s).shut hs ?_
      rw [dropFaults_provisioning]
      exact hs.channel

theorem shut_applyPresets {fetched answer : Answer} (hs : Shut id r.context)
    (hapart : Apart E id r.context) (h : applyPresets J E fetched answer r = some r') :
    Shut id r'.context := by
  obtain ⟨q, hmarked, hk⟩ := markPresets_spec hapart hs.channel
  have hmarks : Shut id (r.context.markPresets E) := by
    rw [hmarked]
    exact (Sheds.provisioning _ q _).shut hs hk
  have hnot : ∀ ps, r.context.whiteList E.retryDelay ≠ some (.task id, ps) := by
    intro ps hw
    obtain ⟨fault, hget, -⟩ := whiteList_retryable hw
    rw [hs.fault] at hget
    cases hget
  unfold applyPresets at h
  dsimp only at h
  split at h
  · obtain ⟨s', hs', rfl⟩ := Option.map_eq_some_iff.mp h
    exact shut_charge hmarks hs'
  · obtain rfl := Option.some.inj h
    exact hmarks
  · obtain ⟨-, hk'⟩ := withProvisions_other (J := J) hapart hnot
    exact shut_runPresets ((withProvisions_sheds E r.context).1.shut hs hk') h

theorem shut_step {a : Action} (hs : Shut id r.context) (hspares : Spares id r a)
    (h : step J r a = some r') : Shut id r'.context := by
  have hend : endSession J r = some r' → Shut id r'.context := by
    intro h
    unfold endSession at h
    split at h
    · obtain rfl := Option.some.inj h
      exact hs
    · obtain ⟨s', hs', rfl⟩ := Option.map_eq_some_iff.mp h
      refine (sheds_deleteRetryNow s').shut (shut_of_records hs hs') ?_
      show _ ∉ s'.provisioning.channels.keys
      rw [recorded_cleared hs']
      exact List.not_mem_nil
  unfold step at h
  split at h
  · exact shut_nextRpc hs h
  · exact shut_applyPresets hs hspares h
  · unfold respond at h
    split at h
    · obtain rfl := Option.some.inj h
      exact hs
    · obtain ⟨s', hs', rfl⟩ := Option.map_eq_some_iff.mp h
      exact shut_charge hs hs'
  · exact hend h
  · obtain rfl := Option.some.inj h
    exact (sheds_clearProvisions _).shut hs List.not_mem_nil
  · exact hend h
  · cases h

end

/-! ## Expiring together -/

/-- The session is set up without the fault, and will delete it. -/
def Discarded (s : SessionContext Provision) (c : Channel) : Prop :=
  s.faults.get? c = none ∧ c ∈ s.faultsTouched

/-- What a session at `timestamp` is to do with a task that expires at `e` and has a
fault: both are discarded once `e` is past, and then the fault is not retried; before,
the fault keeps its retry count, and the task has to wait for it. -/
structure ExpireTogether (J : Js) (store : Store) (timestamp : Nat) (t : Task Provision) (e : Nat) :
    Prop where
  fault : Discarded (store.setup timestamp) (.task t.id) ↔ e ≤ timestamp
  task : ∀ r, Reachable (· = { context := store.setup timestamp }) (StepWith J fun _ _ => True) r →
    t ∈ r.context.tasks → (t ∉ r.context.clearExpired.tasks ↔ e ≤ timestamp)
  retried : e ≤ timestamp → ∀ r,
    Reachable (· = { context := store.setup timestamp }) (StepWith J (Spares t.id)) r →
      ∀ delay ps, r.context.whiteList delay ≠ some (.task t.id, ps)
  kept : timestamp < e → (store.setup timestamp).ready t = false ∧
    (store.setup timestamp).retries.get? (.task t.id)
      = (store.faults.get? (.task t.id)).bind StoredFault.retries

section

variable {J : Js} {store : Store} {t : StoredTask} {e : Nat} {v : StoredFault}

theorem run_timestamp {ok : SessionRun → Action → Prop} {start r : SessionRun}
    (h : Reachable (· = start) (StepWith J ok) r) :
    r.context.timestamp = start.context.timestamp := by
  refine h.invariant (P := fun r => r.context.timestamp = start.context.timestamp) ?_ ?_
  · rintro _ rfl
    rfl
  · rintro r r' hr ⟨a, -, hstep⟩
    exact (step_tasks hstep).1.trans hr

theorem discarded_iff (timestamp : Nat) (hv : store.faults.get? (.task t.task.id) = some v)
    (hexpiry : v.expiry = some e) :
    Discarded (store.setup timestamp) (.task t.task.id) ↔ timestamp ≤ e := by
  obtain ⟨hstale, hfresh⟩ := Store.setup_spec timestamp hv
  rw [hexpiry, Option.any_some] at hstale hfresh
  by_cases hle : timestamp ≤ e
  · exact iff_of_true (hstale (decide_eq_true hle)) hle
  · refine iff_of_false ?_ hle
    rintro ⟨hnone, -⟩
    rw [(hfresh (decide_eq_false hle)).1] at hnone
    cases hnone

/-- At the very date both are discarded. -/
theorem expireTogether_at (ht : t ∈ store.tasks) (htask : t.task.expiry = some e)
    (hv : store.faults.get? (.task t.task.id) = some v) (hexpiry : v.expiry = some e) :
    ExpireTogether J store e t.task e := by
  obtain ⟨htime, htasks, hprovisioning, -⟩ := Store.setup_same store e
  have hexpired : Task.expired e t.task = true := by
    rw [Task.expired, htask]
    exact decide_eq_true le_rfl
  refine ⟨discarded_iff e hv hexpiry, ?_, ?_, fun h => absurd h (lt_irrefl e)⟩
  · intro r hr hmem
    refine iff_of_true ?_ le_rfl
    rw [mem_clearExpired, run_timestamp hr]
    rintro ⟨-, hlive⟩
    dsimp only at hlive
    rw [htime, hexpired] at hlive
    cases hlive
  · intro _ r hr delay ps hw
    have hshut : Shut t.task.id r.context := by
      refine hr.invariant (P := fun r => Shut t.task.id r.context) ?_ ?_
      · rintro _ rfl
        refine ⟨?_, ((discarded_iff e hv hexpiry).mpr le_rfl).1, ?_⟩
        · rw [hprovisioning]
          exact List.not_mem_nil
        · intro u hu hid
          rw [htasks, Store.mem_getDueTasks] at hu
          obtain ⟨u', hu', -, rfl⟩ := hu
          rw [Store.task_unique hu' ht hid, htime]
          exact hexpired
      · rintro r r' hs ⟨a, hspares, hstep⟩
        exact shut_step hs hspares hstep
    obtain ⟨⟨c, fault⟩, hfind, heq⟩ := Option.map_eq_some_iff.mp hw
    obtain ⟨rfl, -⟩ := Prod.mk.inj heq
    have hget := InsMap.get?_eq_some.mpr (List.mem_of_find?_eq_some hfind)
    rw [hshut.fault] at hget
    cases hget

end

/-- Once a session has recorded a fault for the channel of a task that expires at `e`,
every later session that still finds both of them treats them alike only at `e`. -/
theorem expire_together_iff (J : Js) {d d' : DeviceState} {r r' : SessionRun} {t : StoredTask}
    {e timestamp : Nat} (hd : Reachable (fun d => d.session = none) (DeviceStep J) d)
    (hexpiry : t.task.expiry = some e) (he : e ≠ 0) (hs : d.session = some r)
    (hfault : Faults J t.task r r')
    (hd' : Relation.ReflTransGen (DeviceStep J) { d with session := some r' } d')
    (hidle : d'.session = none) (htime : d'.now ≤ timestamp) (ht : t ∈ d'.store.tasks)
    (hfaults : (d'.store.faults.get? (.task t.task.id)).isSome) :
    ExpireTogether J d'.store timestamp t.task e ↔ e = timestamp := by
  have hwell : WellFormed d := by
    refine hd.invariant ?_ fun d d' h hstep => wellFormed_step h hstep
    intro d hnone r hr
    rw [hnone] at hr
    cases hr
  have hlinked := linked_run (linked_of_faults hwell hexpiry he hs hfault) hexpiry he hd'
  obtain ⟨v, hv⟩ := Option.isSome_iff_exists.mp hfaults
  have hsame : v.expiry = some e := (hlinked.idle ht hidle v hv).trans hexpiry
  constructor
  · intro h
    have hboth := (discarded_iff timestamp hv hsame).symm.trans h.fault
    rcases Nat.le_total timestamp e with hle | hle
    · exact (hboth.mp hle).antisymm hle
    · exact hle.antisymm (hboth.mpr hle)
  · rintro rfl
    exact expireTogether_at ht hexpiry hv hsame

/-! ## A task that is tagged before its expiry -/

/-- The task expires at 2000. -/
def expiring : StoredTask where
  timestamp := 0
  task := { tagging with expiry := some 2000 }

def untried : DeviceState where
  store :=
    { faults := InsMap.empty
      tasks := [expiring]
      used := ["65f0"]
      nodup := List.nodup_singleton _
      tasks_used := fun t ht => by
        rw [List.mem_singleton.mp ht]
        exact List.mem_singleton_self _ }
  now := 0
  session := none

theorem runs_actions {J : Js} {d : DeviceState} (as : List Action) :
    ∀ {r r' : SessionRun}, d.session = some r → runActions J r as = some r' →
      Relation.ReflTransGen (DeviceStep J) d { d with session := some r' } := by
  induction as generalizing d with
  | nil =>
      intro r r' hs hrun
      obtain rfl := Option.some.inj hrun
      rw [← hs]
  | cons a as ih =>
      intro r r' hs hrun
      obtain ⟨r₁, hstep, hrest⟩ := Option.bind_eq_some_iff.mp hrun
      exact (ih rfl hrest).head (.act a hs hstep)

/-- The session at 1000 runs the task, which faults, and writes the fault. -/
theorem expiring_faults : ∃ (d : DeviceState) (r r' : SessionRun) (d' : DeviceState),
    Reachable (fun d => d.session = none) (DeviceStep idleJs) d ∧ d.session = some r ∧
      Faults idleJs expiring.task r r' ∧
      Relation.ReflTransGen (DeviceStep idleJs) { d with session := some r' } d' ∧
      d'.session = none ∧ d'.now = 1000 ∧ expiring ∈ d'.store.tasks ∧
      (d'.store.faults.get? (.task "65f0")).map StoredFault.expiry = some (some 2000) := by
  set start : SessionRun := { context := untried.store.setup 1000 }
  have hfirst : step idleJs start (.nextRpc .complete) = some (takeTask idleJs start) := rfl
  have htasks : (takeTask idleJs start).context.tasks = [expiring.task] := rfl
  have hruns :
      ((step idleJs (takeTask idleJs start) (.nextRpc (.fault "script.Error" ""))).bind fun r' =>
        (runActions idleJs r' [.nextRpc .complete, .applyPresets quiet .complete .complete, .close]).map
          fun r => (r'.history, r.control,
            (untried.store.save r.context).tasks.map fun t => t.task.id,
            ((untried.store.save r.context).faults.get? (.task "65f0")).map StoredFault.expiry))
        = some ([.faulted (.task "65f0"), .ran (.task "65f0")], .ended, ["65f0"],
            some (some 2000)) := by
    decide +kernel
  obtain ⟨r', hfault, hruns⟩ := Option.bind_eq_some_iff.mp hruns
  obtain ⟨r, hrest, heq⟩ := Option.map_eq_some_iff.mp hruns
  simp only [Prod.mk.injEq] at heq
  obtain ⟨hhistory, hended, hkept, hexpiry⟩ := heq
  have hbegin : DeviceStep idleJs untried { untried with now := 1000, session := some start } :=
    .begin rfl (Nat.zero_le _)
  have hinit : Reachable (fun d => d.session = none) (DeviceStep idleJs) untried := .init rfl
  refine ⟨{ untried with now := 1000, session := some (takeTask idleJs start) }, takeTask idleJs start,
    r', { untried with now := 1000, store := untried.store.save r.context }, ?_, rfl, ?_, ?_, rfl, rfl,
    ?_, hexpiry⟩
  · exact (hinit.step hbegin).step (.act _ rfl hfirst)
  · refine ⟨?_, ⟨_, hfault⟩, [.faulted (.task "65f0"), .ran (.task "65f0")], ?_, List.mem_cons_self ..⟩
    · rw [htasks]
      exact List.mem_singleton_self _
    · rw [hhistory, takeTask_history]
      rfl
  · exact (runs_actions _ rfl hrest).tail (.finish rfl hended)
  · obtain ⟨u, hu, -⟩ := List.mem_map.mp (hkept ▸ List.mem_singleton_self "65f0")
    have hstored : u ∈ [expiring] := (List.mem_filter.mp hu).1
    rwa [List.mem_singleton.mp hstored] at hu

theorem expire_together_expiring : ∃ d : DeviceState, expiring ∈ d.store.tasks ∧ d.now = 1000 ∧
    (ExpireTogether idleJs d.store 2000 expiring.task 2000 ↔ 2000 = 2000) := by
  obtain ⟨d, r, r', d', hd, hs, hfault, hrun, hidle, hnow, ht, hv⟩ := expiring_faults
  refine ⟨d', ht, hnow, ?_⟩
  refine expire_together_iff idleJs hd rfl (by decide) hs hfault hrun hidle ?_ ht ?_
  · rw [hnow]
    decide
  · obtain ⟨v, hv, -⟩ := Option.map_eq_some_iff.mp hv
    exact Option.isSome_iff_exists.mpr ⟨v, hv⟩

/-- At 1500 the fault is discarded although the task has not expired, and at 2500 it is
not although the task has. -/
theorem expire_apart : ∃ (d : DeviceState) (r r' : SessionRun) (d' : DeviceState),
    Reachable (fun d => d.session = none) (DeviceStep idleJs) d ∧ d.session = some r ∧
      Faults idleJs expiring.task r r' ∧
      Relation.ReflTransGen (DeviceStep idleJs) { d with session := some r' } d' ∧
      d'.session = none ∧ d'.now = 1000 ∧ expiring ∈ d'.store.tasks ∧
      Discarded (d'.store.setup 1500) (.task "65f0") ∧
      ¬ ExpireTogether idleJs d'.store 1500 expiring.task 2000 ∧
      ¬ Discarded (d'.store.setup 2500) (.task "65f0") ∧
      ¬ ExpireTogether idleJs d'.store 2500 expiring.task 2000 := by
  obtain ⟨d, r, r', d', hd, hs, hfault, hrun, hidle, hnow, ht, hv⟩ := expiring_faults
  obtain ⟨v, hv, hexpiry⟩ := Option.map_eq_some_iff.mp hv
  have hdiscarded := fun timestamp =>
    @discarded_iff d'.store expiring 2000 v timestamp hv hexpiry
  refine ⟨d, r, r', d', hd, hs, hfault, hrun, hidle, hnow, ht, ?_, ?_, ?_, ?_⟩
  · exact (hdiscarded 1500).mpr (by decide)
  · intro h
    exact absurd (h.fault.mp ((hdiscarded 1500).mpr (by decide))) (by decide)
  · exact fun h => absurd ((hdiscarded 2500).mp h) (by decide)
  · intro h
    exact absurd ((hdiscarded 2500).mp (h.fault.mpr (by decide))) (by decide)

end GenieAcs
