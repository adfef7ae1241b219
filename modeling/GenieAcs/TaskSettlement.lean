import GenieAcs.Lib.Transition
import GenieAcs.SessionTasks

/-!
# What becomes of the tasks of a session

A task whose channel has run is done in the end and has left no fault, or its
fault is recorded and it is not done. The invariant follows one task: it is
pending until it is done, its channel is set only while it runs, alone, and its
fault goes when it is done.

The retry of a faulted task that `applyPresets` completes without a request is
where this fails: the fault goes and the task stays.
-/

namespace GenieAcs

/-! ## Channels and additions -/

namespace Provisioning

section

variable {P K : Type} {json : P → K} {s : Provisioning P} {c d : Channel}

theorem mem_keys_clearMask : d ∈ (s.clearMask c).channels.keys ↔ d = c ∨ d ∈ s.channels.keys := by
  rw [InsMap.mem_keys, InsMap.mem_keys, clearMask]
  simp only [InsMap.get?_set]
  split_ifs with h <;> simp [h]

/-- A channel that is marked gets the bit, also where the shift count wraps. -/
theorem getLsbD_markAll_mod {n : Nat} (cs : List Channel) :
    ∀ s : Provisioning P, s.provisions.length = n →
      ((cs.foldl (fun s c => s.mark c (Mask.bit s.provisions.length)) s).mask c).getLsbD (n % 32)
        = ((s.mask c).getLsbD (n % 32) || decide (c ∈ cs)) := by
  induction cs with
  | nil => simp
  | cons d cs ih =>
      intro s hs
      rw [List.foldl_cons, ih (s.mark d (Mask.bit s.provisions.length)) hs, mask_mark, hs]
      by_cases hcd : c = d
      · rw [if_pos hcd, ← Mask.bit_mod, Mask.getLsbD_or_bit (Nat.mod_lt n (by omega)), hcd]
        simp
      · simp [hcd]

variable [DecidableEq K]

/-- Taking provisions out keeps the channels; those found are among them. -/
theorem removeSame_channels {text : K} (steps : Nat) :
    ∀ (j : Nat) (s : Provisioning P) (cs : List Channel),
      let r := removeSame json text steps j (s, cs)
      (d ∈ r.1.channels.keys ↔ d ∈ s.channels.keys)
      ∧ cs ⊆ r.2 ∧ ∀ d ∈ r.2, d ∈ cs ∨ d ∈ s.channels.keys := by
  induction steps with
  | zero => exact fun _ _ _ => ⟨Iff.rfl, List.Subset.refl _, fun _ => Or.inl⟩
  | succ steps ih =>
      intro j s cs
      unfold removeSame
      cases hp : s.provisions[j]? with
      | none => exact ⟨Iff.rfl, List.Subset.refl _, fun _ => Or.inl⟩
      | some p =>
          dsimp only
          split_ifs with htext
          · obtain ⟨hkeys, hsub, hfound⟩ := ih (j + 1) (s.remove j) (cs ++ s.havingBit j)
            refine ⟨hkeys.trans mem_keys_remove, ?_, ?_⟩
            · exact List.Subset.trans (List.subset_append_left _ _) hsub
            · intro d hd
              rcases hfound d hd with hd | hd
              · rcases List.mem_append.mp hd with hd | hd
                · exact Or.inl hd
                · exact Or.inr (List.mem_filter.mp hd).1
              · exact Or.inr (mem_keys_remove.mp hd)
          · exact ih (j + 1) s cs

theorem mem_keys_addProvision_iff {p : P} :
    d ∈ (addProvision json c s p).channels.keys ↔ d = c ∨ d ∈ s.channels.keys := by
  obtain ⟨hkeys, hsub, hfound⟩ :=
    @removeSame_channels P K json d _ (json p) s.provisions.length 0 s [c]
  rw [mem_keys_addProvision rfl, hkeys]
  constructor
  · rintro (hd | hd)
    · rcases hfound d hd with hd | hd
      · exact Or.inl (List.mem_singleton.mp hd)
      · exact Or.inr hd
    · exact Or.inr hd
  · rintro (rfl | hd)
    · exact Or.inl (hsub (List.mem_singleton_self _))
    · exact Or.inr hd

theorem mem_keys_addProvisions {ps : List P} :
    d ∈ (s.addProvisions json c ps).channels.keys ↔ d = c ∨ d ∈ s.channels.keys := by
  induction ps using List.reverseRecOn with
  | nil => exact mem_keys_mark c d 0
  | append_singleton ps p ih =>
      rw [addProvisions, List.foldl_append, List.foldl_cons, List.foldl_nil,
        mem_keys_addProvision_iff, ← addProvisions, ih]
      tauto

theorem mask_addProvision_ne (p : P) : (addProvision json c s p).mask c ≠ 0 := by
  intro hzero
  have hsub := (@removeSame_channels P K json c _ (json p) s.provisions.length 0 s [c]).2.1
  have hbit := getLsbD_markAll_mod (c := c)
    (removeSame json (json p) s.provisions.length 0 (s, [c])).2
    (removeSame json (json p) s.provisions.length 0 (s, [c])).1 rfl
  rw [addProvision_eq rfl] at hzero
  simp only [mask] at hzero hbit
  rw [hzero] at hbit
  simp [hsub (List.mem_singleton_self c)] at hbit

/-- The integer of a channel that something was added under is not 0. -/
theorem mask_addProvisions_ne {ps : List P} (h : ps ≠ []) :
    (s.addProvisions json c ps).mask c ≠ 0 := by
  obtain ⟨init, p, rfl⟩ := List.eq_nil_or_concat' ps |>.resolve_left h
  rw [addProvisions, List.foldl_append]
  exact mask_addProvision_ne p

end

end Provisioning

/-! ## What a fault leaves -/

namespace SessionContext

section

variable {P K : Type}

theorem get?_updateFault (faults : InsMap Channel (SessionFault P)) (c d : Channel)
    (f : List P → List P) :
    (updateFault faults d f).get? c
      = (faults.get? c).map fun fault =>
          if c = d then { fault with provisions := f fault.provisions } else fault := by
  by_cases h : c = d
  · subst h
    rw [updateFault]
    cases hc : faults.get? c with
    | none => rw [hc, Option.map_none]
    | some fault => simp
  · rw [get?_updateFault_of_ne h]
    simp [h]

/-- The channel has a fault, and something else than its provisions is so. -/
def Has (p : SessionFault P → Prop) (faults : InsMap Channel (SessionFault P)) (c : Channel) : Prop :=
  ∃ fault, faults.get? c = some fault ∧ p fault

def SaysNothingOfProvisions (p : SessionFault P → Prop) : Prop :=
  ∀ fault provisions, p fault → p { fault with provisions }

theorem Has.updateFault {p : SessionFault P → Prop} (hp : SaysNothingOfProvisions p)
    {faults : InsMap Channel (SessionFault P)} {c : Channel} (h : Has p faults c) (d : Channel)
    (f : List P → List P) : Has p (updateFault faults d f) c := by
  obtain ⟨fault, hget, hfault⟩ := h
  refine ⟨_, by rw [get?_updateFault, hget, Option.map_some], ?_⟩
  split_ifs
  · exact hp fault _ hfault
  · exact hfault

/-- The fault of a channel has the time and is not to be retried at once. -/
def Waits (faults : InsMap Channel (SessionFault P)) (c : Channel) (timestamp : Nat) : Prop :=
  Has (fun fault => fault.timestamp = timestamp ∧ fault.retryNow = false) faults c

theorem Waits.isSome {faults : InsMap Channel (SessionFault P)} {c : Channel} {t : Nat}
    (h : Waits faults c t) : (faults.get? c).isSome := by
  obtain ⟨fault, hget, -⟩ := h
  rw [hget]
  rfl

/-- The parts of a session that a fault does not change. -/
structure SameTasks (s s' : SessionContext P) : Prop where
  timestamp : s'.timestamp = s.timestamp
  tasks : s'.tasks = s.tasks
  doneTasks : s'.doneTasks = s.doneTasks

theorem chargeChannels_sameTasks (fault : Fault) (channels : InsMap Channel Mask)
    (cs : List Channel) :
    ∀ s : SessionContext P, SameTasks s (cs.foldl (chargeChannel fault channels) s) := by
  induction cs with
  | nil => exact fun _ => ⟨rfl, rfl, rfl⟩
  | cons c cs ih =>
      intro s
      obtain ⟨htime, htasks, hdone⟩ := ih (chargeChannel fault channels s c)
      exact ⟨htime, htasks, hdone⟩

/-- What a charge says of the channel it is for is so after the last charge. -/
theorem chargeChannels_has {p : SessionFault P → Prop} {fault : Fault}
    {channels : InsMap Channel Mask} {c : Channel} {s₀ : SessionContext P}
    (hp : ∀ s, SameTasks s₀ s → Has p (chargeChannel fault channels s c).faults c)
    (cs : List Channel) :
    ∀ s : SessionContext P, SameTasks s₀ s → (c ∈ cs ∨ Has p s.faults c) →
      Has p (cs.foldl (chargeChannel fault channels) s).faults c := by
  induction cs with
  | nil =>
      rintro s - (h | h)
      · cases h
      · exact h
  | cons d cs ih =>
      intro s hs h
      have hsame : SameTasks s₀ (chargeChannel fault channels s d) :=
        ⟨hs.timestamp, hs.tasks, hs.doneTasks⟩
      refine ih _ hsame ?_
      by_cases hcd : c = d
      · subst hcd
        exact Or.inr (hp s hs)
      · rcases h with h | ⟨f, hget, hf⟩
        · exact Or.inl ((List.mem_cons.mp h).resolve_left hcd)
        · right
          refine ⟨f, ?_, hf⟩
          rw [← hget]
          exact InsMap.get?_set_of_ne _ hcd _

section

variable {p : SessionFault P → Prop} (hp : SaysNothingOfProvisions p) {c : Channel}
include hp

theorem updateFaults_has (g : Channel → Bool) (f : List P → List P) (cs : List Channel) :
    ∀ faults : InsMap Channel (SessionFault P), Has p faults c →
      Has p (cs.foldl (fun faults d => if g d then updateFault faults d f else faults) faults) c := by
  induction cs with
  | nil => exact fun _ h => h
  | cons d cs ih =>
      intro faults h
      apply ih
      show Has p (if g d then updateFault faults d f else faults) c
      split_ifs
      · exact h.updateFault hp d f
      · exact h

theorem pushProvisions_has (channels : InsMap Channel Mask) (provisions : List (P × Nat)) :
    ∀ faults : InsMap Channel (SessionFault P), Has p faults c →
      Has p (provisions.foldl (pushProvision channels) faults) c := by
  induction provisions with
  | nil => exact fun _ h => h
  | cons q provisions ih =>
      intro faults h
      exact ih _ (updateFaults_has hp _ (· ++ [q.1]) channels.keys faults h)

/-- What every channel is charged with stays, once the provisions are put in. -/
theorem recordFault_has [DecidableEq K] {json : P → K} {s s' : SessionContext P} {fault : Fault}
    {provisions : List P} {channels : InsMap Channel Mask}
    (h : recordFault json s fault provisions channels = some s')
    (hcharged : Has p (channels.keys.foldl (chargeChannel fault channels) s).faults c) :
    Has p s'.faults c := by
  unfold recordFault at h
  split_ifs at h
  obtain rfl := Option.some.inj h
  have hpushed := pushProvisions_has hp channels provisions.zipIdx _ hcharged
  have hlast := updateFaults_has hp (fun _ => true)
    (fun provs => (appendProvisions json [] provs).1) channels.keys _ hpushed
  simp only [if_true] at hlast
  exact hlast

end

/-- What recording a fault of the session does to one channel. -/
structure Recorded (c : Channel) (s s' : SessionContext P) : Prop where
  same : SameTasks s s'
  cleared : s'.provisioning = Provisioning.clearProvisions
  outside : c ∉ s.provisioning.channels.keys → s'.faults.get? c = s.faults.get? c
  inside : c ∈ s.provisioning.channels.keys → (s'.faults.get? c).isSome
  alone : s.provisioning.channels.keys = [c] → Waits s'.faults c s.timestamp

variable [DecidableEq K] {json : P → K}

theorem recordSessionFault_recorded {s s' : SessionContext P} {fault : Fault}
    (htime : fault.timestamp.getD s.timestamp = s.timestamp)
    (h : recordSessionFault json s fault = some s') (c : Channel) : Recorded c s s' := by
  have hkeys : s.provisioning.channels.keys ≠ [] := by
    intro hnil
    rw [recordSessionFault, recordFault, if_pos hnil] at h
    cases h
  obtain ⟨r, hr, hcleared, hout, hin, -⟩ :=
    recordFault_spec json s fault s.provisioning.provisions hkeys
  obtain rfl : r = s' := Option.some.inj (hr.symm.trans h)
  rw [recordFault, if_neg hkeys] at hr
  obtain rfl := Option.some.inj hr
  obtain ⟨h1, h2, h3⟩ := chargeChannels_sameTasks fault s.provisioning.channels
    s.provisioning.channels.keys s
  refine ⟨⟨h1, h2, h3⟩, hcleared, hout c, hin c, ?_⟩
  intro halone
  have hcharge : ∀ r, SameTasks s r → Waits
      (chargeChannel fault s.provisioning.channels r c).faults c s.timestamp := by
    intro r hr
    -- a fault of one channel alone is not retried at once
    refine ⟨_, InsMap.get?_set_self .., ?_, ?_⟩
    · rw [← htime, ← hr.timestamp]
    · simp [halone]
  refine recordFault_has (fun _ _ hf => hf) h ?_
  refine chargeChannels_has hcharge s.provisioning.channels.keys s ⟨rfl, rfl, rfl⟩ (Or.inl ?_)
  rw [halone]
  exact List.mem_singleton_self c

omit [DecidableEq K] in
theorem get?_deleteRetryNow (s : SessionContext P) (c : Channel) :
    s.deleteRetryNow.faults.get? c
      = (s.faults.get? c).map fun f => { f with retryNow := false } := by
  rw [deleteRetryNow, InsMap.get?_filterMap]
  cases s.faults.get? c <;> rfl

end

/-! ## What leaves a task alone -/

/-- Whatever happened, it was not about the task. -/
structure Same (id : String) (s s' : SessionContext Provision) : Prop where
  timestamp : s'.timestamp = s.timestamp
  tasks : s'.tasks.Sublist s.tasks
  pending : id ∈ s'.tasks.map Task.id ↔ id ∈ s.tasks.map Task.id
  doneTasks : id ∈ s'.doneTasks ↔ id ∈ s.doneTasks
  fault : s'.faults.get? (.task id) = s.faults.get? (.task id)

namespace Same

variable {id : String} {s s' s'' : SessionContext Provision}

theorem refl (id : String) (s : SessionContext Provision) : Same id s s :=
  ⟨rfl, List.Sublist.refl _, Iff.rfl, Iff.rfl, rfl⟩

theorem trans (h : Same id s s') (h' : Same id s' s'') : Same id s s'' where
  timestamp := h'.timestamp.trans h.timestamp
  tasks := h'.tasks.trans h.tasks
  pending := h'.pending.trans h.pending
  doneTasks := h'.doneTasks.trans h.doneTasks
  fault := h'.fault.trans h.fault

theorem provisioning (id : String) (s : SessionContext Provision)
    (q : Provisioning Provision) : Same id s { s with provisioning := q } :=
  ⟨rfl, List.Sublist.refl _, Iff.rfl, Iff.rfl, rfl⟩

theorem foldl {A : Type} {f : SessionContext Provision → A → SessionContext Provision}
    {l : List A} (h : ∀ a ∈ l, ∀ s, Same id s (f s a)) :
    ∀ s, Same id s (l.foldl f s) := by
  induction l with
  | nil => exact fun s => refl id s
  | cons a l ih =>
      intro s
      have hrest := ih fun b hb => h b (List.mem_cons_of_mem a hb)
      exact (h a (List.mem_cons_self ..) s).trans (hrest (f s a))

theorem dropFault {c : Channel} (h : c ≠ .task id) : Same id s (s.dropFault c) := by
  unfold SessionContext.dropFault
  split_ifs
  · refine ⟨rfl, List.Sublist.refl _, Iff.rfl, Iff.rfl, ?_⟩
    rw [InsMap.get?_erase, if_neg h.symm]
  · exact refl id s

/-- Only the task that is found goes. -/
theorem mem_eraseP {tasks : List (Task Provision)} {p : Task Provision → Bool}
    {u : Task Provision} (h : ∀ t, tasks.find? p = some t → t ≠ u) (hu : u ∈ tasks) :
    u ∈ tasks.eraseP p := by
  induction tasks with
  | nil => cases hu
  | cons a tasks ih =>
      by_cases hp : p a = true
      · rw [List.eraseP_cons_of_pos hp]
        have hne := h a (List.find?_cons_of_pos hp)
        exact (List.mem_cons.mp hu).resolve_left (Ne.symm hne)
      · rw [List.eraseP_cons_of_neg hp]
        rw [List.find?_cons_of_neg hp] at h
        rcases List.mem_cons.mp hu with rfl | hu
        · exact List.mem_cons_self ..
        · exact List.mem_cons_of_mem a (ih h hu)

theorem finish {id' : String} {p : Task Provision → Bool} (hid : id' ≠ id)
    (hp : ∀ t, s.tasks.find? p = some t → t.id ≠ id) :
    Same id s { s with doneTasks := s.doneTasks ++ [id'], tasks := s.tasks.eraseP p } := by
  refine ⟨rfl, List.eraseP_sublist, ?_, ?_, rfl⟩
  · simp only [List.mem_map]
    constructor
    · rintro ⟨t, ht, heq⟩
      exact ⟨t, List.mem_of_mem_eraseP ht, heq⟩
    · rintro ⟨t, ht, heq⟩
      refine ⟨t, mem_eraseP ?_ ht, heq⟩
      rintro u hu rfl
      exact hp u hu heq
  · simp [hid.symm]

theorem completeChannel {e : Channel × Mask} (h : e.1 ≠ .task id) :
    Same id s (s.completeChannel e) := by
  obtain ⟨c, m⟩ := e
  have hdrop : Same id s (if m = 0 then s else s.dropFault c) := by
    split_ifs
    · exact refl id s
    · exact dropFault h
  cases c with
  | named name => exact hdrop
  | task id' =>
      have hid : id' ≠ id := fun heq => h (by rw [heq])
      refine hdrop.trans (finish hid ?_)
      intro t ht heq
      have hfound : t.id = id' := by simpa using List.find?_some ht
      exact hid (hfound.symm.trans heq)

theorem dropTask {t : Task Provision} (h : t.id ≠ id) : Same id s (s.dropTask t) := by
  have hne : Channel.task t.id ≠ .task id := fun heq => h (Channel.task.inj heq)
  refine trans ?_ (dropFault hne)
  exact ⟨rfl, List.Sublist.refl _, Iff.rfl, by simp [h.symm], rfl⟩

/-- The expired tasks go, and this one is not among them. -/
theorem clearExpired
    (h : ∀ t ∈ s.tasks, t.id = id → Task.expired s.timestamp t = false) :
    Same id s s.clearExpired := by
  have hkept : Same id s
      { s with tasks := s.tasks.filter fun t => !Task.expired s.timestamp t } := by
    refine ⟨rfl, List.filter_sublist, ?_, Iff.rfl, rfl⟩
    simp only [List.mem_map, List.mem_filter]
    constructor
    · rintro ⟨t, ⟨ht, -⟩, heq⟩
      exact ⟨t, ht, heq⟩
    · rintro ⟨t, ht, heq⟩
      exact ⟨t, ⟨ht, by rw [h t ht heq]; rfl⟩, heq⟩
  refine hkept.trans (foldl ?_ _)
  intro t ht s'
  obtain ⟨hmem, hexp⟩ := List.mem_filter.mp ht
  apply dropTask
  intro heq
  rw [h t hmem heq] at hexp
  cases hexp

theorem appendToFault (J : Js) {e : Channel × List Provision} (h : e.1 ≠ .task id) :
    Same id s (s.appendToFault J e) := by
  refine ⟨rfl, List.Sublist.refl _, Iff.rfl, Iff.rfl, ?_⟩
  exact get?_updateFault_of_ne h.symm _

end Same

end SessionContext

/-! ## The invariant of one task -/

namespace SessionRun

open SessionContext

/-- The last thing that happened to a channel. -/
def lastEvent (c : Channel) (history : List ChannelEvent) : Option ChannelEvent :=
  history.find? fun e => e = .ran c ∨ e = .faulted c

section

variable {s s' : SessionContext Provision} {c : Channel} {history : List ChannelEvent}

theorem ran_mem_running : .ran c ∈ running s ↔ c ∈ s.provisioning.channels.keys := by
  simp [running]

theorem faulted_mem_faulting : .faulted c ∈ faulting s ↔ c ∈ s.provisioning.channels.keys := by
  simp [faulting]

theorem lastEvent_running_of_mem (h : c ∈ s.provisioning.channels.keys) :
    lastEvent c (running s ++ history) = some (.ran c) := by
  unfold lastEvent running
  revert h
  generalize s.provisioning.channels.keys = ds
  intro h
  induction ds with
  | nil => cases h
  | cons d ds ih =>
      rw [List.map_cons, List.cons_append, List.find?_cons]
      by_cases hdc : d = c
      · simp [hdc]
      · have hskip : decide (ChannelEvent.ran d = .ran c ∨ ChannelEvent.ran d = .faulted c)
            = false := by simp [hdc]
        rw [hskip]
        exact ih ((List.mem_cons.mp h).resolve_left (Ne.symm hdc))

/-- Events of other channels do not count. -/
theorem lastEvent_append {events : List ChannelEvent}
    (h : ∀ e ∈ events, e ≠ .ran c ∧ e ≠ .faulted c) :
    lastEvent c (events ++ history) = lastEvent c history := by
  have hnone : events.find? (fun e => decide (e = .ran c ∨ e = .faulted c)) = none := by
    rw [List.find?_eq_none]
    intro e he
    simp [h e he]
  rw [lastEvent, List.find?_append, hnone, Option.none_or]
  rfl

theorem lastEvent_running (h : c ∉ s.provisioning.channels.keys) :
    lastEvent c (running s ++ history) = lastEvent c history := by
  apply lastEvent_append
  rintro e he
  obtain ⟨d, hd, rfl⟩ := List.mem_map.mp he
  refine ⟨?_, (fun heq => nomatch heq)⟩
  intro heq
  exact h (ChannelEvent.ran.inj heq ▸ hd)

theorem lastEvent_faulting (h : c ∉ s.provisioning.channels.keys) :
    lastEvent c (faulting s ++ history) = lastEvent c history := by
  apply lastEvent_append
  rintro e he
  obtain ⟨d, hd, rfl⟩ := List.mem_map.mp he
  refine ⟨(fun heq => nomatch heq), ?_⟩
  intro heq
  exact h (ChannelEvent.faulted.inj heq ▸ hd)

end

/-- The books of one task. With `strict`, a fault of this session is not
retried in it. -/
structure Accounted (strict : Prop) (id : String) (s : SessionContext Provision)
    (history : List ChannelEvent) : Prop where
  ids : (s.tasks.map Task.id).Nodup
  live : ∀ t ∈ s.tasks, t.id = id → Task.expired s.timestamp t = false
  pending : id ∈ s.tasks.map Task.id ↔ id ∉ s.doneTasks
  clean : id ∈ s.doneTasks →
    s.faults.get? (.task id) = none ∧ .task id ∉ s.provisioning.channels.keys
  alone : .task id ∈ s.provisioning.channels.keys →
    s.provisioning.channels.keys = [.task id]
  ran : .ran (.task id) ∈ history →
    id ∈ s.doneTasks ∨ (s.faults.get? (.task id)).isSome
      ∨ .task id ∈ s.provisioning.channels.keys
  faulted : lastEvent (.task id) history = some (.faulted (.task id)) →
    (s.faults.get? (.task id)).isSome
  held : strict → .faulted (.task id) ∈ history →
    Waits s.faults (.task id) s.timestamp ∧ .task id ∉ s.provisioning.channels.keys

namespace Accounted

variable {strict : Prop} {id : String} {s s' : SessionContext Provision}
  {history : List ChannelEvent}

/-- Something happened that is not about the task, whose channel is not set. -/
theorem same (h : Accounted strict id s history) (hs : Same id s s')
    (hk : .task id ∉ s.provisioning.channels.keys)
    (hk' : .task id ∉ s'.provisioning.channels.keys) : Accounted strict id s' history where
  ids := h.ids.sublist (hs.tasks.map Task.id)
  live t ht heq := by
    rw [hs.timestamp]
    exact h.live t (hs.tasks.subset ht) heq
  pending := by rw [hs.pending, hs.doneTasks, h.pending]
  clean hdone := by
    rw [hs.fault]
    exact ⟨(h.clean (hs.doneTasks.mp hdone)).1, hk'⟩
  alone hmem := absurd hmem hk'
  ran hran := by
    rw [hs.doneTasks, hs.fault]
    rcases h.ran hran with hdone | hfault | hmem
    · exact Or.inl hdone
    · exact Or.inr (Or.inl hfault)
    · exact absurd hmem hk
  faulted hlast := by
    rw [hs.fault]
    exact h.faulted hlast
  held hstrict hmem := by
    obtain ⟨⟨fault, hget, hrest⟩, -⟩ := h.held hstrict hmem
    rw [hs.timestamp]
    exact ⟨⟨fault, hs.fault.trans hget, hrest⟩, hk'⟩

/-- `rpcRequest` is called. -/
theorem running (h : Accounted strict id s history) :
    Accounted strict id s (running s ++ history) where
  ids := h.ids
  live := h.live
  pending := h.pending
  clean := h.clean
  alone := h.alone
  ran hran := by
    rcases List.mem_append.mp hran with hran | hran
    · exact Or.inr (Or.inr (ran_mem_running.mp hran))
    · exact h.ran hran
  faulted hlast := by
    by_cases hk : .task id ∈ s.provisioning.channels.keys
    · rw [lastEvent_running_of_mem hk] at hlast
      cases hlast
    · rw [lastEvent_running hk] at hlast
      exact h.faulted hlast
  held hstrict hmem := by
    rcases List.mem_append.mp hmem with hmem | hmem
    · obtain ⟨d, -, heq⟩ := List.mem_map.mp hmem
      cases heq
    · exact h.held hstrict hmem

/-- A fault is recorded for all channels of the session. -/
theorem recorded (h : Accounted strict id s history) (hr : Recorded (.task id) s s') :
    Accounted strict id s' (faulting s ++ history) := by
  have hkeys : .task id ∉ s'.provisioning.channels.keys := by
    rw [hr.cleared]
    exact List.not_mem_nil
  refine ⟨?_, ?_, ?_, ?_, ?_, ?_, ?_, ?_⟩
  · rw [hr.same.tasks]
    exact h.ids
  · rw [hr.same.tasks, hr.same.timestamp]
    exact h.live
  · rw [hr.same.tasks, hr.same.doneTasks]
    exact h.pending
  · intro hdone
    rw [hr.same.doneTasks] at hdone
    obtain ⟨hnone, hk⟩ := h.clean hdone
    exact ⟨(hr.outside hk).trans hnone, hkeys⟩
  · exact fun hmem => absurd hmem hkeys
  · intro hran
    rw [hr.same.doneTasks]
    by_cases hk : .task id ∈ s.provisioning.channels.keys
    · exact Or.inr (Or.inl (hr.inside hk))
    · have hran : .ran (.task id) ∈ history := by
        rcases List.mem_append.mp hran with hmem | hmem
        · obtain ⟨d, -, heq⟩ := List.mem_map.mp hmem
          cases heq
        · exact hmem
      rw [hr.outside hk]
      rcases h.ran hran with hdone | hfault | hmem
      · exact Or.inl hdone
      · exact Or.inr (Or.inl hfault)
      · exact absurd hmem hk
  · intro hlast
    by_cases hk : .task id ∈ s.provisioning.channels.keys
    · exact hr.inside hk
    · rw [lastEvent_faulting hk] at hlast
      rw [hr.outside hk]
      exact h.faulted hlast
  · intro hstrict hmem
    refine ⟨?_, hkeys⟩
    rw [hr.same.timestamp]
    by_cases hk : .task id ∈ s.provisioning.channels.keys
    · exact hr.alone (h.alone hk)
    · rcases List.mem_append.mp hmem with hmem | hmem
      · exact absurd (faulted_mem_faulting.mp hmem) hk
      · obtain ⟨⟨fault, hget, hrest⟩, -⟩ := h.held hstrict hmem
        exact ⟨fault, (hr.outside hk).trans hget, hrest⟩

end Accounted

end SessionRun

end GenieAcs
