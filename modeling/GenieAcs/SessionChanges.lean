import GenieAcs.TaskRuns

/-!
# What a step of a session changes

Whatever the presets are, a step of a session takes tasks and faults away (`Sheds`), and
it may record one fault in between (`change_step`). Neither gives a fault another expiry,
but a fault that is recorded for the channel of a task has that of the task
(`recorded_expiry`).
-/

namespace GenieAcs

open SessionContext SessionRun

/-! ## What a session takes away -/

/-- Tasks that go are done, and every fault has the expiry of one that was there. -/
structure Sheds (s s' : SessionContext Provision) : Prop where
  timestamp : s'.timestamp = s.timestamp
  tasks : s'.tasks.Sublist s.tasks
  pending : ∀ t ∈ s.tasks, t ∈ s'.tasks ∨ t.id ∈ s'.doneTasks
  doneTasks : s.doneTasks ⊆ s'.doneTasks
  touched : s.faultsTouched ⊆ s'.faultsTouched
  faults : ∀ c f', s'.faults.get? c = some f' →
    ∃ f, s.faults.get? c = some f ∧ f'.expiry = f.expiry

namespace Sheds

variable {s s' s'' : SessionContext Provision}

theorem refl (s : SessionContext Provision) : Sheds s s :=
  ⟨rfl, List.Sublist.refl _, fun _ ht => Or.inl ht, List.Subset.refl _, List.Subset.refl _,
    fun _ f hf => ⟨f, hf, rfl⟩⟩

theorem trans (h : Sheds s s') (h' : Sheds s' s'') : Sheds s s'' where
  timestamp := h'.timestamp.trans h.timestamp
  tasks := h'.tasks.trans h.tasks
  pending t ht := by
    rcases h.pending t ht with ht | hdone
    · exact h'.pending t ht
    · exact Or.inr (h'.doneTasks hdone)
  doneTasks := List.Subset.trans h.doneTasks h'.doneTasks
  touched := List.Subset.trans h.touched h'.touched
  faults c f'' hf'' := by
    obtain ⟨f', hf', heq'⟩ := h'.faults c f'' hf''
    obtain ⟨f, hf, heq⟩ := h.faults c f' hf'
    exact ⟨f, hf, heq'.trans heq⟩

theorem provisioning (s : SessionContext Provision) (q : Provisioning Provision) (n : Nat) :
    Sheds s { s with provisioning := q, presetCycles := n } :=
  ⟨rfl, List.Sublist.refl _, fun _ ht => Or.inl ht, List.Subset.refl _, List.Subset.refl _,
    fun _ f hf => ⟨f, hf, rfl⟩⟩

theorem foldl {A : Type} {f : SessionContext Provision → A → SessionContext Provision}
    {l : List A} (h : ∀ a ∈ l, ∀ s, Sheds s (f s a)) : ∀ s, Sheds s (l.foldl f s) := by
  induction l with
  | nil => exact refl
  | cons a l ih =>
      intro s
      have hrest := ih fun b hb => h b (List.mem_cons_of_mem a hb)
      exact (h a (List.mem_cons_self ..) s).trans (hrest (f s a))

theorem dropFault (s : SessionContext Provision) (c : Channel) : Sheds s (s.dropFault c) := by
  unfold SessionContext.dropFault
  split_ifs
  · refine ⟨rfl, List.Sublist.refl _, fun _ ht => Or.inl ht, List.Subset.refl _,
      List.subset_cons_self _ _, ?_⟩
    intro d f hf
    rw [InsMap.get?_erase] at hf
    split_ifs at hf
    exact ⟨f, hf, rfl⟩
  · exact refl s

/-- The first task of a kind is done, and it is the one with the id. -/
theorem finish {id : String} {p : Task Provision → Bool}
    (hp : ∀ t, s.tasks.find? p = some t → t.id = id) :
    Sheds s { s with doneTasks := s.doneTasks ++ [id], tasks := s.tasks.eraseP p } := by
  refine ⟨rfl, List.eraseP_sublist, ?_, List.subset_append_left _ _, List.Subset.refl _,
    fun _ f hf => ⟨f, hf, rfl⟩⟩
  intro t ht
  by_cases hfirst : s.tasks.find? p = some t
  · right
    rw [hp t hfirst]
    exact List.mem_append_right _ (List.mem_singleton_self _)
  · left
    refine Same.mem_eraseP ?_ ht
    rintro u hu rfl
    exact hfirst hu

theorem completeChannel (s : SessionContext Provision) (e : Channel × Mask) :
    Sheds s (s.completeChannel e) := by
  obtain ⟨c, m⟩ := e
  have hdrop : Sheds s (if m = 0 then s else s.dropFault c) := by
    split_ifs
    · exact refl s
    · exact dropFault s c
  cases c with
  | named name => exact hdrop
  | task id =>
      refine hdrop.trans (finish ?_)
      intro t ht
      simpa using List.find?_some ht

theorem dropTask (s : SessionContext Provision) (t : Task Provision) : Sheds s (s.dropTask t) := by
  have hdone : Sheds s { s with doneTasks := s.doneTasks ++ [t.id] } :=
    ⟨rfl, List.Sublist.refl _, fun _ ht => Or.inl ht, List.subset_append_left _ _,
      List.Subset.refl _, fun _ f hf => ⟨f, hf, rfl⟩⟩
  exact hdone.trans (dropFault _ _)

end Sheds

section

variable {s s' : SessionContext Provision} {J : Js} {E : Surroundings} {t : Task Provision}

theorem doneTasks_dropFault (c : Channel) : (s.dropFault c).doneTasks = s.doneTasks := by
  unfold SessionContext.dropFault
  split_ifs <;> rfl

theorem tasks_dropFault (c : Channel) : (s.dropFault c).tasks = s.tasks := by
  unfold SessionContext.dropFault
  split_ifs <;> rfl

theorem tasks_dropTasks (l : List (Task Provision)) (s : SessionContext Provision) :
    (l.foldl dropTask s).tasks = s.tasks := by
  refine List.foldlRecOn (motive := fun s' => s'.tasks = s.tasks) l dropTask rfl fun s' h t _ => ?_
  rw [dropTask, tasks_dropFault]
  exact h

theorem tasks_clearExpired : s.clearExpired.tasks = s.tasks.filter (!Task.expired s.timestamp ·) :=
  tasks_dropTasks _ _

theorem mem_clearExpired :
    t ∈ s.clearExpired.tasks ↔ t ∈ s.tasks ∧ Task.expired s.timestamp t = false := by
  rw [tasks_clearExpired, List.mem_filter, Bool.not_eq_true']

theorem doneTasks_dropTasks (l : List (Task Provision)) :
    ∀ s : SessionContext Provision, ∀ t ∈ l, t.id ∈ (l.foldl dropTask s).doneTasks := by
  induction l with
  | nil => exact fun _ _ ht => absurd ht List.not_mem_nil
  | cons u l ih =>
      intro s t ht
      rcases List.mem_cons.mp ht with rfl | ht
      · refine (Sheds.foldl (fun u _ s => Sheds.dropTask s u) (s.dropTask t)).doneTasks ?_
        rw [dropTask, doneTasks_dropFault]
        exact List.mem_append_right _ (List.mem_singleton_self _)
      · exact ih _ t ht

theorem sheds_clearExpired (s : SessionContext Provision) : Sheds s s.clearExpired := by
  have hdrop := Sheds.foldl (fun u (_ : u ∈ s.tasks.filter (Task.expired s.timestamp)) s =>
    Sheds.dropTask s u) { s with tasks := s.tasks.filter fun t => !Task.expired s.timestamp t }
  refine ⟨hdrop.timestamp, hdrop.tasks.trans List.filter_sublist, ?_, hdrop.doneTasks,
    hdrop.touched, hdrop.faults⟩
  intro t ht
  cases hexpired : Task.expired s.timestamp t with
  | true => exact Or.inr (doneTasks_dropTasks _ _ t (List.mem_filter.mpr ⟨ht, hexpired⟩))
  | false => exact Or.inl (mem_clearExpired.mpr ⟨ht, hexpired⟩)

theorem sheds_updateFault (faults : InsMap Channel (SessionFault Provision)) (c d : Channel)
    (f : List Provision → List Provision) {fault : SessionFault Provision}
    (h : (updateFault faults d f).get? c = some fault) :
    ∃ fault', faults.get? c = some fault' ∧ fault.expiry = fault'.expiry := by
  rw [get?_updateFault] at h
  obtain ⟨fault', hget, rfl⟩ := Option.map_eq_some_iff.mp h
  refine ⟨fault', hget, ?_⟩
  split_ifs <;> rfl

theorem sheds_appendToFault (s : SessionContext Provision) (e : Channel × List Provision) :
    Sheds s (s.appendToFault J e) := by
  refine ⟨rfl, List.Sublist.refl _, fun _ ht => Or.inl ht, List.Subset.refl _, ?_,
    fun c f hf => sheds_updateFault s.faults c e.1 _ hf⟩
  show s.faultsTouched ⊆ if _ then _ else _
  split_ifs
  · exact List.subset_cons_self _ _
  · exact List.Subset.refl _

theorem sheds_deleteRetryNow (s : SessionContext Provision) : Sheds s s.deleteRetryNow := by
  refine ⟨rfl, List.Sublist.refl _, fun _ ht => Or.inl ht, List.Subset.refl _,
    List.Subset.refl _, ?_⟩
  intro c f hf
  rw [get?_deleteRetryNow] at hf
  obtain ⟨fault, hget, rfl⟩ := Option.map_eq_some_iff.mp hf
  exact ⟨fault, hget, rfl⟩

theorem sheds_clearProvisions (s : SessionContext Provision) : Sheds s s.clearProvisions :=
  Sheds.provisioning s _ s.presetCycles

theorem markPresets_eq (E : Surroundings) (s : SessionContext Provision) :
    ∃ q : Provisioning Provision, s.markPresets E = { s with provisioning := q } := by
  have hmarks : ∀ (l : List Preset) (s : SessionContext Provision),
      ∃ q : Provisioning Provision, l.foldl (markPreset E) s = { s with provisioning := q } := by
    intro l
    induction l with
    | nil => exact fun s => ⟨s.provisioning, rfl⟩
    | cons preset l ih =>
        intro s
        rw [List.foldl_cons, markPreset]
        split_ifs
        · exact ih s
        · exact ih _
  exact hmarks _ s

/-- Presets add provisions, to the session or to its faults. -/
theorem withProvisions_sheds (E : Surroundings) (s : SessionContext Provision) :
    Sheds s (s.withProvisions J E) ∧ (s.withProvisions J E).tasks = s.tasks := by
  have hretry : Sheds s (s.withRetry J E.retryDelay)
      ∧ (s.withRetry J E.retryDelay).tasks = s.tasks := by
    unfold withRetry
    split <;> exact ⟨Sheds.provisioning s _ s.presetCycles, rfl⟩
  have hadded : ∀ (l : List Preset) (q : SessionContext Provision × InsMap Channel (List Provision)),
      Sheds s q.1 ∧ q.1.tasks = s.tasks →
        Sheds s (l.foldl (addPreset J E (s.blackList E.retryDelay)) q).1
          ∧ (l.foldl (addPreset J E (s.blackList E.retryDelay)) q).1.tasks = s.tasks := by
    intro l
    induction l with
    | nil => exact fun _ h => h
    | cons preset l ih =>
        intro q h
        refine ih _ ?_
        unfold addPreset
        dsimp only
        split_ifs
        · exact h
        · exact ⟨h.1.trans (Sheds.provisioning _ _ q.1.presetCycles), h.2⟩
        · exact h
  have happended : ∀ (l : List (Channel × List Provision)) (s' : SessionContext Provision),
      Sheds s s' ∧ s'.tasks = s.tasks →
        Sheds s (l.foldl (appendToFault J) s') ∧ (l.foldl (appendToFault J) s').tasks = s.tasks := by
    intro l
    induction l with
    | nil => exact fun _ h => h
    | cons e l ih => exact fun s' h => ih _ ⟨h.1.trans (sheds_appendToFault s' e), h.2⟩
  obtain ⟨hs, htasks⟩ := happended _ _ (hadded (s.filteredPresets E) (_, InsMap.empty) hretry)
  unfold withProvisions
  dsimp only
  split
  · exact ⟨hs, htasks⟩
  · exact ⟨hs.trans (Sheds.provisioning _ _ _), htasks⟩

end

/-! ## What a step does -/

/-- A step takes something away, or it also records a fault. -/
inductive Change (J : Js) (r r' : SessionRun) : Prop
  | sheds (events : List ChannelEvent) : r'.history = events ++ r.history →
      (∀ c, .faulted c ∉ events) → Sheds r.context r'.context → Change J r r'
  | records (s s' : SessionContext Provision) (fault : Fault) (events : List ChannelEvent) :
      r'.history = events ++ r.history →
      (∀ c, .faulted c ∈ events → c ∈ s.provisioning.channels.keys) →
      Sheds r.context s → s.tasks = r.context.tasks →
      recordSessionFault (Provision.text J) s fault = some s' → Sheds s' r'.context → Change J r r'

section

variable {s s' : SessionContext Provision} {J : Js} {r r' : SessionRun} {E : Surroundings}
  {c : Channel}

theorem faulted_notMem_running : .faulted c ∉ running s := by
  intro hmem
  obtain ⟨d, -, heq⟩ := List.mem_map.mp hmem
  cases heq

theorem keys_of_faulted (h : .faulted c ∈ faulting s ++ running s) :
    c ∈ s.provisioning.channels.keys := by
  rcases List.mem_append.mp h with h | h
  · exact faulted_mem_faulting.mp h
  · exact absurd h faulted_notMem_running

theorem charge_cases {fault : Fault} (h : s.charge J fault = some s') :
    ∃ s₁, recordSessionFault (Provision.text J) s fault = some s₁ ∧ Sheds s₁ s' := by
  obtain ⟨s₁, hs₁, rfl⟩ := Option.map_eq_some_iff.mp h
  exact ⟨s₁, hs₁, sheds_clearProvisions s₁⟩

theorem takeTask_sheds (r : SessionRun) : Sheds r.context (takeTask J r).context := by
  have hcompleted := Sheds.foldl
    (fun e (_ : e ∈ r.context.provisioning.channels.entries) s => Sheds.completeChannel s e) r.context
  have hcleared := (hcompleted.trans (sheds_clearProvisions _)).trans (sheds_clearExpired _)
  unfold takeTask
  dsimp only
  split
  · exact hcleared
  · rename_i t hfind
    split
    · rename_i s' hs'
      obtain ⟨q, rfl, -⟩ := startTask_adds hs'
      exact hcleared.trans (Sheds.provisioning _ q _)
    · refine hcleared.trans (Sheds.finish ?_)
      intro u hu
      rw [Option.some.inj (hfind.symm.trans hu)]

theorem takeTask_history (r : SessionRun) :
    (takeTask J r).history = running r.context ++ r.history := by
  unfold takeTask
  dsimp only
  split
  · rfl
  · split <;> rfl

theorem change_nextRpc {answer : Answer} (h : nextRpc J answer r = some r') : Change J r r' := by
  unfold nextRpc at h
  split at h
  · obtain ⟨s', hs', rfl⟩ := Option.map_eq_some_iff.mp h
    obtain ⟨s₁, hs₁, hsheds⟩ := charge_cases hs'
    exact .records r.context s₁ _ (faulting r.context ++ running r.context) rfl
      (fun c => keys_of_faulted) (Sheds.refl _) rfl hs₁ hsheds
  · obtain rfl := Option.some.inj h
    exact .sheds (running r.context) rfl (fun _ => faulted_notMem_running) (Sheds.refl _)
  · obtain rfl := Option.some.inj h
    exact .sheds (running r.context) (takeTask_history r) (fun _ => faulted_notMem_running)
      (takeTask_sheds r)

theorem change_runPresets {retrying : Bool} {answer : Answer} (hs : Sheds r.context s)
    (htasks : s.tasks = r.context.tasks)
    (h : runPresets J E retrying answer s r.history = some r') : Change J r r' := by
  unfold runPresets at h
  by_cases hcycles : s.presetCycles > MAX_CYCLES
  · rw [if_pos hcycles] at h
    obtain ⟨s', hs', rfl⟩ := Option.map_eq_some_iff.mp h
    refine .records s s' _ (faulting s) rfl (fun c => faulted_mem_faulting.mp) hs htasks hs' ?_
    exact (sheds_deleteRetryNow s').trans (sheds_clearProvisions _)
  · rw [if_neg hcycles] at h
    dsimp only at h
    split at h
    · obtain ⟨s', hs', rfl⟩ := Option.map_eq_some_iff.mp h
      obtain ⟨s₁, hs₁, hsheds⟩ := charge_cases hs'
      refine .records s s₁ _ (faulting s ++ running s) ?_ (fun c => keys_of_faulted) hs htasks hs₁
        hsheds
      exact (List.append_assoc _ _ _).symm
    · obtain rfl := Option.some.inj h
      exact .sheds (running s) rfl (fun _ => faulted_notMem_running) hs
    · obtain rfl := Option.some.inj h
      refine .sheds (running s) rfl (fun _ => faulted_notMem_running) (hs.trans ?_)
      exact Sheds.foldl (fun c _ s => Sheds.dropFault s c) s

theorem change_applyPresets {fetched answer : Answer}
    (h : applyPresets J E fetched answer r = some r') : Change J r r' := by
  obtain ⟨q, hmarked⟩ := markPresets_eq E r.context
  have hsheds : Sheds r.context (r.context.markPresets E) := by
    rw [hmarked]
    exact Sheds.provisioning _ q _
  have htasks : (r.context.markPresets E).tasks = r.context.tasks := by rw [hmarked]
  unfold applyPresets at h
  dsimp only at h
  split at h
  · obtain ⟨s', hs', rfl⟩ := Option.map_eq_some_iff.mp h
    obtain ⟨s₁, hs₁, hafter⟩ := charge_cases hs'
    exact .records _ s₁ _ (faulting (r.context.markPresets E)) rfl
      (fun c => faulted_mem_faulting.mp) hsheds htasks hs₁ hafter
  · obtain rfl := Option.some.inj h
    exact .sheds [] rfl (fun _ => List.not_mem_nil) hsheds
  · obtain ⟨hs, htasks⟩ := withProvisions_sheds (J := J) E r.context
    exact change_runPresets hs htasks h

theorem change_respond {fault : Option (String × String)} (h : respond J fault r = some r') :
    Change J r r' := by
  cases fault with
  | none =>
      obtain rfl := Option.some.inj h
      exact .sheds [] rfl (fun _ => List.not_mem_nil) (Sheds.refl _)
  | some fault =>
      obtain ⟨s', hs', rfl⟩ := Option.map_eq_some_iff.mp h
      obtain ⟨s₁, hs₁, hsheds⟩ := charge_cases hs'
      exact .records r.context s₁ _ (faulting r.context) rfl (fun c => faulted_mem_faulting.mp)
        (Sheds.refl _) rfl hs₁ hsheds

theorem change_endSession (h : endSession J r = some r') : Change J r r' := by
  unfold endSession at h
  split at h
  · obtain rfl := Option.some.inj h
    exact .sheds [] rfl (fun _ => List.not_mem_nil) (Sheds.refl _)
  · obtain ⟨s', hs', rfl⟩ := Option.map_eq_some_iff.mp h
    exact .records r.context s' _ (faulting r.context) rfl (fun c => faulted_mem_faulting.mp)
      (Sheds.refl _) rfl hs' (sheds_deleteRetryNow s')

/-- The step lemma of a session. -/
theorem change_step {a : Action} (h : step J r a = some r') : Change J r r' := by
  unfold step at h
  split at h
  · exact change_nextRpc h
  · exact change_applyPresets h
  · exact change_respond h
  · exact change_endSession h
  · obtain rfl := Option.some.inj h
    exact .sheds [] rfl (fun _ => List.not_mem_nil) (sheds_clearProvisions _)
  · exact change_endSession h
  · cases h

end

/-! ## The expiry of a fault that is recorded -/

section

variable {s s' : SessionContext Provision} {J : Js} {t : Task Provision} {e : Nat} {fault : Fault}

/-- The fault takes the expiry of the last task with the id, and there is but one. -/
theorem foldl_expiry {tasks : List (Task Provision)} (he : e ≠ 0)
    (h : ∀ u ∈ tasks, u.id = t.id → u.expiry = some e) :
    ∀ expiry, t ∈ tasks ∨ expiry = some e →
      tasks.foldl (fun e u => if u.id = t.id ∧ u.expiry.getD 0 ≠ 0 then u.expiry else e) expiry
        = some e := by
  induction tasks with
  | nil => exact fun _ h => h.resolve_left List.not_mem_nil
  | cons u tasks ih =>
      intro expiry ht
      rw [List.foldl_cons]
      refine ih (fun v hv => h v (List.mem_cons_of_mem u hv)) _ ?_
      by_cases hid : u.id = t.id
      · have hu := h u (List.mem_cons_self ..) hid
        right
        rw [if_pos ⟨hid, by rw [hu]; exact he⟩, hu]
      · rw [if_neg fun hand => hid hand.1]
        rcases ht with ht | ht
        · rcases List.mem_cons.mp ht with rfl | ht
          · exact absurd rfl hid
          · exact Or.inl ht
        · exact Or.inr ht

/-- The task is there, and no other task has its id. -/
theorem recorded_expiry (h : recordSessionFault (Provision.text J) s fault = some s')
    (ht : t ∈ s.tasks) (hexpiry : ∀ u ∈ s.tasks, u.id = t.id → u.expiry = some e) (he : e ≠ 0)
    (hc : .task t.id ∈ s.provisioning.channels.keys) :
    Has (fun f => f.expiry = some e) s'.faults (.task t.id) := by
  refine recordFault_has (fun _ _ hf => hf) h ?_
  refine chargeChannels_has ?_ s.provisioning.channels.keys s ⟨rfl, rfl, rfl⟩ (Or.inl hc)
  intro r hr
  refine ⟨_, InsMap.get?_set_self .., ?_⟩
  rw [hr.tasks]
  exact foldl_expiry he hexpiry none (Or.inl ht)

theorem recorded_tasks (h : recordSessionFault (Provision.text J) s fault = some s') :
    SameTasks s s' := by
  unfold recordSessionFault recordFault at h
  split_ifs at h
  obtain rfl := Option.some.inj h
  obtain ⟨htime, htasks, hdone⟩ := chargeChannels_sameTasks fault s.provisioning.channels
    s.provisioning.channels.keys s
  exact ⟨htime, htasks, hdone⟩

theorem recorded_outside (h : recordSessionFault (Provision.text J) s fault = some s') {c : Channel}
    (hc : c ∉ s.provisioning.channels.keys) : s'.faults.get? c = s.faults.get? c := by
  have hkeys : s.provisioning.channels.keys ≠ [] := by
    intro hnil
    rw [recordSessionFault, recordFault, if_pos hnil] at h
    cases h
  obtain ⟨r, hr, -, hout, -⟩ :=
    recordFault_spec (Provision.text J) s fault s.provisioning.provisions hkeys
  obtain rfl : r = s' := Option.some.inj (hr.symm.trans h)
  exact hout c hc

theorem recorded_touched (h : recordSessionFault (Provision.text J) s fault = some s') :
    (∀ c ∈ s.provisioning.channels.keys, c ∈ s'.faultsTouched)
      ∧ s.faultsTouched ⊆ s'.faultsTouched := by
  have hcharge : ∀ (channels : InsMap Channel Mask) (cs : List Channel)
      (s : SessionContext Provision),
      (∀ c ∈ cs, c ∈ (cs.foldl (chargeChannel fault channels) s).faultsTouched)
        ∧ s.faultsTouched ⊆ (cs.foldl (chargeChannel fault channels) s).faultsTouched := by
    intro channels cs
    induction cs with
    | nil => exact fun _ => ⟨fun _ hc => absurd hc List.not_mem_nil, List.Subset.refl _⟩
    | cons d cs ih =>
        intro s
        obtain ⟨hnew, hold⟩ := ih (chargeChannel fault channels s d)
        refine ⟨?_, fun c hc => hold (List.mem_cons_of_mem d hc)⟩
        intro c hc
        rcases List.mem_cons.mp hc with rfl | hc
        · exact hold (List.mem_cons_self ..)
        · exact hnew c hc
  unfold recordSessionFault recordFault at h
  split_ifs at h
  obtain rfl := Option.some.inj h
  exact hcharge s.provisioning.channels s.provisioning.channels.keys s

end

end GenieAcs
