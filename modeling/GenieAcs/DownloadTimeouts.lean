import GenieAcs.DeviceClosure
import GenieAcs.DeviceObjects
import GenieAcs.Downloads
import GenieAcs.JsNumbers

/-!
# Downloads that time out

A download whose `TransferComplete` does not come in time is given up. Its
`Download` parameter goes back to the time of the last download; or, where the
settings say that it shall count as a success, the code for a `TransferComplete`
is to record it, with a request of its own making.
-/

namespace GenieAcs

def JsNumber.truthy : JsNumber → Bool
  | none => false
  | some x => x ≠ ((0 : ℚ) : WithTop ℚ)

namespace DeviceSession

variable {P : Type} (s : DeviceSession P) (timeout success : JsNumber)

/-! ## `timeoutOperations` -/

/-- The seconds since an operation was stored. -/
def age (operation : Operation P) : WithBot (WithTop ℚ) :=
  ((((s.timestamp : ℚ) - operation.timestamp) / 1000 : ℚ) : WithTop ℚ)

/-- `timestamp < operation.timestamp + timeout * 1000`. -/
def pending (operation : Operation P) : Bool :=
  match timeout with
  | some x => s.age operation < x
  | none => false

def timeoutFault (operation : Operation P) : Fault :=
  ⟨"timeout", "Download operation timed out", some operation.timestamp⟩

/-- One round of the loop. -/
def timeoutOperation (st : DeviceSession P × List Fault × List (Operation P))
    (entry : JsString × Operation P) :
    Except JsError (DeviceSession P × List Fault × List (Operation P)) :=
  if st.1.pending timeout entry.2 then .ok st
  else if success.truthy then do
    let r ← st.1.transferComplete ⟨entry.1, none, 0, 0⟩
    .ok (r.1, st.2)
  else do
    let s : DeviceSession P := { st.1 with
      operations := st.1.operations.erase entry.1
      operationsTouched := st.1.touchOperation entry.1 }
    let s ← s.revertDownloadParameters entry.2.args.inst
    .ok (s, st.2.1 ++ [timeoutFault entry.2], st.2.2 ++ [entry.2])

/-- The session, the faults and the operations they are about; the settings are
taken for numbers. -/
def timeoutOperations : Except JsError (DeviceSession P × List Fault × List (Operation P)) :=
  s.operations.entries.foldlM (timeoutOperation timeout success) (s, [], [])

/-! ## What it is for -/

/-- The operation is as old as the timeout says. -/
def older (operation : Operation P) : Bool :=
  match timeout with
  | some x => x ≤ s.age operation
  | none => false

/-- The time of the last download, 0 if there was none. -/
def lastTime (inst : Instance) : AttrValue :=
  .array [orZero ((s.valueOf inst .lastDownload).bind firstOf), some (.str (js "xsd:dateTime"))]

def downloadValue (inst : Instance) : Option AttrValue :=
  s.deviceData.valueOf (downloadPath inst (js "Download"))

/-- What is to become of the operations: those that are too old are taken off
and marked, and either recorded as downloads or given up. -/
def TimesOut : Prop :=
  ∃ s' faults operations, s.timeoutOperations timeout success = .ok (s', faults, operations)
    ∧ (∀ key operation, s.operations.get? key = some operation → s'.operations.get? key
        = if s.older timeout operation then none else some operation)
    ∧ (∀ key, key ∈ s'.operationsTouched ↔ key ∈ s.operationsTouched
        ∨ ∃ operation, s.operations.get? key = some operation ∧ s.older timeout operation = true)
    ∧ if success.truthy then faults = [] ∧ operations = []
        ∧ ∀ key operation, s.operations.get? key = some operation →
          s.older timeout operation = true →
          s'.valueOf operation.args.inst .lastFileType = some (xsdString operation.args.fileType)
            ∧ s'.valueOf operation.args.inst .lastFileName
              = some (xsdString operation.args.fileName)
            ∧ s'.valueOf operation.args.inst .lastTargetFileName
              = some (xsdString operation.args.targetFileName)
      else operations = (s.operations.entries.filter fun e => s.older timeout e.2).map Prod.snd
        ∧ faults = operations.map timeoutFault
        ∧ ∀ operation ∈ operations,
          s'.downloadValue operation.args.inst = some (s.lastTime operation.args.inst)

/-- The value of `Download` that a write leaves alone. -/
def heldDownload (inst : Instance) : Option AttrValue :=
  s.deviceData.heldValue s.writeTime (downloadPath inst (js "Download"))

/-- `LastDownload` has a value if it has attributes. -/
def HasTime (inst : Instance) : Prop :=
  ∀ attributes, s.deviceData.attributes.get? (downloadPath inst DownloadParameter.lastDownload.name)
    = some attributes → attributes .value ≠ none

/-- When it does become of them. -/
def Timeable : Prop :=
  (timeout = none → s.operations.entries = [])
    ∧ ∀ key operation, s.operations.get? key = some operation →
      s.older timeout operation = true → success.truthy = false ∧ s.HasTime operation.args.inst
        ∧ ∀ v, s.heldDownload operation.args.inst = some v → v = s.lastTime operation.args.inst

/-! ## Reverting -/

section Revert

variable {s} {s₀ : DeviceSession P}

/-- The loop between two rounds. -/
structure Underway (s₀ s : DeviceSession P) : Prop where
  timestamp : s.timestamp = s₀.timestamp
  iteration : s.iteration = s₀.iteration
  last : ∀ inst : Instance,
    s.deviceData.attributes.get? (downloadPath inst DownloadParameter.lastDownload.name)
      = s₀.deviceData.attributes.get? (downloadPath inst DownloadParameter.lastDownload.name)
  objects : ∀ inst : Instance,
    s₀.deviceData.attributes.get? (downloadPath inst DownloadParameter.lastDownload.name) ≠ none →
      s.deviceData.IsObject [js "Downloads"] ∧ s.deviceData.IsObject [js "Downloads", inst.1]
  held : ∀ inst v, s₀.heldDownload inst = some v →
    s.deviceData.Stands s₀.writeTime (downloadPath inst (js "Download")) v
  open_ : ∀ inst, s₀.heldDownload inst = none → s.heldDownload inst = none
    ∨ s.deviceData.Stands s₀.writeTime (downloadPath inst (js "Download")) (s₀.lastTime inst)

/-- The instance has gone back. -/
def Reverted (s₀ s : DeviceSession P) (inst : Instance) : Prop :=
  s.deviceData.Stands s₀.writeTime (downloadPath inst (js "Download"))
    ((s₀.heldDownload inst).getD (s₀.lastTime inst))

theorem Underway.writeTime (h : Underway s₀ s) : s.writeTime = s₀.writeTime := by
  rw [DeviceSession.writeTime, DeviceSession.writeTime, h.timestamp, h.iteration]

theorem above_download {inst : Instance} {name : JsString} {p : Path}
    (h : DeviceData.Above p (downloadPath inst name)) :
    p = [js "Downloads"] ∨ p = [js "Downloads", inst.1] := by
  have hlt : p.length < 3 := h.length_lt
  obtain ⟨hne, hprefix, -⟩ := h
  rw [List.prefix_iff_eq_take] at hprefix
  have hpos := List.length_pos_iff.mpr hne
  obtain h1 | h2 : p.length = 1 ∨ p.length = 2 := by omega
  · rw [h1] at hprefix
    exact Or.inl hprefix
  · rw [h2] at hprefix
    exact Or.inr hprefix

theorem Underway.start (h : s.deviceData.Tree 99) : Underway s s where
  timestamp := rfl
  iteration := rfl
  last _ := rfl
  objects inst hlast := by
    obtain ⟨t, -, hall⟩ := h.closed _ (Option.isSome_iff_ne_none.mpr hlast)
    have hobject : ∀ q, DeviceData.Above q (downloadPath inst DownloadParameter.lastDownload.name) →
        s.deviceData.IsObject q := by
      intro q hq
      obtain ⟨current, time, stamp, hcur, htime, -, hobj⟩ := hall q hq
      exact ⟨current, stamp, DeviceData.currentAttributes_of htime (h.positive q time htime) hcur,
        hobj⟩
    exact ⟨hobject _ ⟨List.cons_ne_nil _ _, ⟨_, rfl⟩, by simp [downloadPath]⟩,
      hobject _ ⟨List.cons_ne_nil _ _, ⟨_, rfl⟩, by simp [downloadPath]⟩⟩
  held inst v hv := by
    obtain ⟨current, stamp, hcur, hval, hle⟩ := DeviceData.heldValue_eq_some.mp hv
    have hattrs := DeviceData.currentAttributes_eq_some hcur
    obtain ⟨t, htime, hstamps⟩ := h.stamped _ current hattrs
    exact ⟨t, current, stamp, htime, hle.trans (hstamps _ _ hval), hattrs, hval, hle⟩
  open_ _ hnone := Or.inl hnone

theorem Underway.held_eq (h : Underway s₀ s) (inst : Instance) :
    (s.heldDownload inst).getD (s₀.lastTime inst)
      = (s₀.heldDownload inst).getD (s₀.lastTime inst) := by
  have hheld : ∀ v, s.deviceData.Stands s₀.writeTime (downloadPath inst (js "Download")) v →
      s.heldDownload inst = some v := by
    intro v hv
    rw [heldDownload, h.writeTime]
    exact hv.held writeTime_pos
  cases hinit : s₀.heldDownload inst with
  | some v => rw [hheld v (h.held inst v hinit)]
  | none =>
      rcases h.open_ inst hinit with hnone | hstands
      · rw [hnone]
      · rw [hheld _ hstands]
        rfl

/-- `s` after the write of a value for `Download`. -/
def withDownload (s : DeviceSession P) (inst : Instance) (v : AttrValue) : DeviceSession P :=
  let last := downloadPath inst DownloadParameter.lastDownload.name
  let deviceData := { s.deviceData with paths := s.deviceData.paths.add last }
  { s with deviceData := deviceData.setValue (downloadPath inst (js "Download")) s.writeTime v }

theorem Underway.revert_ok (h : Underway s₀ s) {inst : Instance} (htime : s₀.HasTime inst) :
    s.revertDownloadParameters inst = .ok (s.withDownload inst (s₀.lastTime inst)) := by
  have hlast := h.last inst
  unfold revertDownloadParameters
  dsimp only
  rw [hlast]
  cases hattrs : s₀.deviceData.attributes.get?
      (downloadPath inst DownloadParameter.lastDownload.name) with
  | none =>
      have hvalue : s₀.valueOf inst .lastDownload = none := by
        rw [valueOf, DeviceData.valueOf, hattrs]
        rfl
      rw [lastTime, hvalue]
      rfl
  | some attributes =>
      cases hval : attributes .value with
      | none => exact absurd hval (htime attributes hattrs)
      | some n =>
          obtain ⟨stamp, value⟩ := n
          have hvalue : s₀.valueOf inst .lastDownload = some value := by
            rw [valueOf, DeviceData.valueOf, hattrs, Option.bind_some, hval]
            rfl
          rw [lastTime, hvalue]
          dsimp only
          rw [hval]
          rfl

theorem Underway.revert_error (h : Underway s₀ s) {inst : Instance} (htime : ¬ s₀.HasTime inst) :
    s.revertDownloadParameters inst = .error .typeError := by
  have hlast := h.last inst
  rw [HasTime] at htime
  push Not at htime
  obtain ⟨attributes, hattrs, hval⟩ := htime
  unfold revertDownloadParameters
  dsimp only
  rw [hlast, hattrs]
  dsimp only
  rw [hval]

theorem download_plain (inst : Instance) : star ∉ downloadPath inst (js "Download") :=
  downloadPath_plain inst (by decide)

theorem last_plain (inst : Instance) :
    star ∉ downloadPath inst DownloadParameter.lastDownload.name :=
  downloadPath_plain inst (name_ne .lastDownload).1

/-- Neither of two such paths is above the other. -/
theorem downloadPath_beside {inst inst' : Instance} {name name' : JsString}
    (h : inst ≠ inst' ∨ name ≠ name') : ¬ downloadPath inst name <+: downloadPath inst' name' := by
  intro hprefix
  have heq := hprefix.eq_of_length rfl
  simp only [downloadPath, List.cons.injEq, true_and, and_true] at heq
  exact h.elim (fun hne => hne (Subtype.ext heq.1)) fun hne => hne heq.2

/-- Going back concerns one parameter. -/
theorem Underway.withDownload (h : Underway s₀ s) (inst : Instance) :
    let s' := s.withDownload inst (s₀.lastTime inst)
    Underway s₀ s' ∧ Reverted s₀ s' inst ∧ ∀ other, Reverted s₀ s other → Reverted s₀ s' other := by
  intro s'
  let d : DeviceData := { s.deviceData with
    paths := s.deviceData.paths.add (downloadPath inst DownloadParameter.lastDownload.name) }
  have hpos : 0 < s.writeTime := writeTime_pos
  have hname : DownloadParameter.lastDownload.name ≠ js "Download" := (name_ne .lastDownload).2
  have hhere : Reverted s₀ s' inst := by
    have hstands := DeviceData.setValue_stands (d := d) (v := s₀.lastTime inst) hpos
      (download_plain inst)
    have hheld := h.held_eq inst
    rw [Reverted, ← hheld, ← h.writeTime]
    exact hstands
  have helsewhere : ∀ (other : Instance) (v : AttrValue), other ≠ inst →
      s.deviceData.Stands s₀.writeTime (downloadPath other (js "Download")) v →
      s'.deviceData.Stands s₀.writeTime (downloadPath other (js "Download")) v := by
    intro other v hne hstands
    rw [← h.writeTime] at hstands ⊢
    exact DeviceData.Stands.after_setValue hpos (download_plain inst)
      (downloadPath_beside (Or.inl hne)) hstands
  have hobjects : ∀ other : Instance,
      s₀.deviceData.attributes.get? (downloadPath other DownloadParameter.lastDownload.name)
        ≠ none →
      ∀ p, DeviceData.Above p (downloadPath inst (js "Download")) →
        p <+: downloadPath other DownloadParameter.lastDownload.name → s.deviceData.IsObject p := by
    intro other hlast p hup hprefix
    obtain ⟨htop, hother⟩ := h.objects other hlast
    rcases above_download hup with rfl | rfl
    · exact htop
    · have heq : inst.1 = other.1 := by
        have htake := List.prefix_iff_eq_take.mp hprefix
        simpa [downloadPath] using htake
      rw [heq]
      exact hother
  refine ⟨⟨h.timestamp, h.iteration, fun other => ?_, fun other hlast => ?_, fun other v hv => ?_,
    fun other hnone => ?_⟩, hhere, fun other hother => ?_⟩
  · have hbeside : ¬ downloadPath other DownloadParameter.lastDownload.name
        <+: downloadPath inst (js "Download") := downloadPath_beside (Or.inr hname)
    by_cases hlast : s₀.deviceData.attributes.get?
        (downloadPath other DownloadParameter.lastDownload.name) = none
    · rw [hlast]
      obtain ⟨-, hattrs⟩ := DeviceData.set_frame d (downloadPath inst (js "Download"))
        s.writeTime (some (DeviceData.valueAttributes s.writeTime (s₀.lastTime inst))) [] hbeside
      exact DeviceData.clears_none _ (hattrs.trans ((h.last other).trans hlast))
    · rw [← h.last other]
      exact (DeviceData.setValue_outside (d := d) hpos (download_plain inst) (last_plain other)
        hbeside (downloadPath_beside (Or.inr hname.symm)) (hobjects other hlast)).2
  · obtain ⟨htop, hown⟩ := h.objects other hlast
    have hkeeps : ∀ q, star ∉ q → q.length < 3 →
        q <+: downloadPath other DownloadParameter.lastDownload.name → s.deviceData.IsObject q →
        s'.deviceData.IsObject q := by
      intro q hq hlen hprefix hobj
      refine DeviceData.setValue_isObject hpos (download_plain inst) hq ?_
        (fun p hup hp => hobjects other hlast p hup (hp.trans hprefix)) hobj
      intro hlong
      have hle := hlong.length_le
      change 3 ≤ q.length at hle
      omega
    have hplain := last_plain other
    refine ⟨hkeeps _ (fun hs => hplain ?_) (by simp) ⟨_, rfl⟩ htop,
      hkeeps _ (fun hs => hplain ?_) (by simp) ⟨_, rfl⟩ hown⟩
    · exact List.mem_append_left _ hs
    · exact List.mem_append_left [DownloadParameter.lastDownload.name] hs
  · by_cases heq : other = inst
    · subst heq
      rw [Reverted, hv] at hhere
      exact hhere
    · exact helsewhere other v heq (h.held other v hv)
  · by_cases heq : other = inst
    · subst heq
      rw [Reverted, hnone] at hhere
      exact Or.inr hhere
    · rcases h.open_ other hnone with hfree | hstands
      · refine Or.inl ?_
        cases hheld : s'.heldDownload other with
        | none => rfl
        | some w =>
            have hbefore := DeviceData.setValue_heldValue
              (downloadPath_beside (Or.inl heq)) hheld
            exact absurd (hbefore.symm.trans hfree) (Option.some_ne_none w)
      · exact Or.inr (helsewhere other _ heq hstands)
  · by_cases heq : other = inst
    · exact heq ▸ hhere
    · exact helsewhere other _ heq hother

end Revert

/-! ## The loop -/

section Loop

variable {s} {s₀ : DeviceSession P} {timeout success : JsNumber}
  {entry : JsString × Operation P} {entries : List (JsString × Operation P)}
  {faults : List Fault} {operations : List (Operation P)}

theorem Underway.pending (h : Underway s₀ s) (operation : Operation P) :
    s.pending timeout operation = s₀.pending timeout operation := by
  unfold DeviceSession.pending age
  rw [h.timestamp]

theorem timeoutOperation_pending (h : s.pending timeout entry.2 = true) :
    timeoutOperation timeout success (s, faults, operations) entry
      = .ok (s, faults, operations) := if_pos h

/-- The request made up for `transferComplete` does not tell a success. -/
theorem timeoutOperation_success (hsuccess : success.truthy = true)
    (hdue : s.pending timeout entry.2 = false)
    (hstored : s.operations.get? entry.1 = some entry.2) :
    timeoutOperation timeout success (s, faults, operations) entry = .error .typeError := by
  rw [timeoutOperation, if_neg (by rw [hdue]; exact Bool.false_ne_true), if_pos hsuccess,
    transferComplete, hstored]
  dsimp only
  rw [if_neg (by simp)]
  unfold revertDownloadParameters
  dsimp only
  cases s.deviceData.attributes.get?
      (downloadPath entry.2.args.inst DownloadParameter.lastDownload.name) with
  | none => rfl
  | some attributes =>
      dsimp only
      cases attributes .value <;> rfl

/-- The session without an operation. -/
def withoutOperation (s : DeviceSession P) (key : JsString) : DeviceSession P :=
  { s with operations := s.operations.erase key, operationsTouched := s.touchOperation key }

theorem Underway.withoutOperation (h : Underway s₀ s) (key : JsString) :
    Underway s₀ (s.withoutOperation key) :=
  ⟨h.timestamp, h.iteration, h.last, h.objects, h.held, h.open_⟩

/-- An operation that is due is taken back, and its fault reported. -/
theorem timeoutOperation_due (hsuccess : success.truthy = false)
    (hdue : s.pending timeout entry.2 = false) :
    timeoutOperation timeout success (s, faults, operations) entry = (do
      let s ← (s.withoutOperation entry.1).revertDownloadParameters entry.2.args.inst
      Except.ok (s, faults ++ [timeoutFault entry.2], operations ++ [entry.2])) := by
  rw [timeoutOperation, if_neg (by rw [hdue]; exact Bool.false_ne_true),
    if_neg (by rw [hsuccess]; exact Bool.false_ne_true)]
  rfl

theorem timeoutOperation_ok (h : Underway s₀ s) (hsuccess : success.truthy = false)
    (hdue : s.pending timeout entry.2 = false) (htime : s₀.HasTime entry.2.args.inst) :
    timeoutOperation timeout success (s, faults, operations) entry
      = .ok ((s.withoutOperation entry.1).withDownload entry.2.args.inst
          (s₀.lastTime entry.2.args.inst),
        faults ++ [timeoutFault entry.2], operations ++ [entry.2]) := by
  rw [timeoutOperation_due hsuccess hdue, (h.withoutOperation entry.1).revert_ok htime]
  rfl

theorem timeoutOperation_error (h : Underway s₀ s) (hsuccess : success.truthy = false)
    (hdue : s.pending timeout entry.2 = false) (htime : ¬ s₀.HasTime entry.2.args.inst) :
    timeoutOperation timeout success (s, faults, operations) entry = .error .typeError := by
  rw [timeoutOperation_due hsuccess hdue, (h.withoutOperation entry.1).revert_error htime]
  rfl

/-- With success on timeout the loop comes to its end only if nothing is due. -/
theorem loop_success (hsuccess : success.truthy = true)
    (hstored : ∀ e ∈ entries, s.operations.get? e.1 = some e.2) :
    entries.foldlM (timeoutOperation timeout success) (s, faults, operations)
      = if ∀ e ∈ entries, s.pending timeout e.2 = true then .ok (s, faults, operations)
        else .error .typeError := by
  induction entries with
  | nil => rfl
  | cons entry entries ih =>
      have ih := ih fun e he => hstored e (List.mem_cons_of_mem _ he)
      rw [List.foldlM_cons]
      by_cases hpending : s.pending timeout entry.2 = true
      · rw [timeoutOperation_pending hpending]
        show List.foldlM _ _ _ = _
        rw [ih]
        exact if_congr (by rw [List.forall_mem_cons]; exact (and_iff_right hpending).symm) rfl rfl
      · have hdue : s.pending timeout entry.2 = false := by simpa using hpending
        rw [timeoutOperation_success hsuccess hdue (hstored entry (List.mem_cons_self ..)),
          if_neg fun hall => hpending (hall entry (List.mem_cons_self ..))]
        rfl

/-- One of the entries is due under the key. -/
def Due (timeout : JsNumber) (s₀ : DeviceSession P) (entries : List (JsString × Operation P))
    (key : JsString) : Prop :=
  ∃ e ∈ entries, e.1 = key ∧ s₀.pending timeout e.2 = false

/-- What the rounds over `entries` make of the session. -/
structure Rounds (timeout : JsNumber) (s₀ s s' : DeviceSession P)
    (entries : List (JsString × Operation P)) : Prop where
  underway : Underway s₀ s'
  erased : ∀ key, Due timeout s₀ entries key → s'.operations.get? key = none
  kept : ∀ key, ¬ Due timeout s₀ entries key → s'.operations.get? key = s.operations.get? key
  touched : ∀ key, key ∈ s'.operationsTouched ↔ key ∈ s.operationsTouched
    ∨ Due timeout s₀ entries key
  reverted : ∀ inst, Reverted s₀ s inst
    ∨ (∃ e ∈ entries, e.2.args.inst = inst ∧ s₀.pending timeout e.2 = false) → Reverted s₀ s' inst

theorem mem_touchOperation {key key' : JsString} :
    key' ∈ s.touchOperation key ↔ key' = key ∨ key' ∈ s.operationsTouched := by
  rw [touchOperation]
  by_cases h : key ∈ s.operationsTouched
  · rw [if_pos h]
    exact ⟨Or.inr, fun h' => h'.elim (fun heq => heq ▸ h) id⟩
  · rw [if_neg h, List.mem_append, List.mem_singleton]
    exact or_comm

theorem Rounds.pending {s' : DeviceSession P} (h : Rounds timeout s₀ s s' entries)
    (hpending : s₀.pending timeout entry.2 = true) : Rounds timeout s₀ s s' (entry :: entries) := by
  have hdue : ∀ key, Due timeout s₀ (entry :: entries) key ↔ Due timeout s₀ entries key := by
    intro key
    simp [Due, hpending]
  refine ⟨h.underway, fun key hkey => h.erased key ((hdue key).mp hkey),
    fun key hkey => h.kept key (mt (hdue key).mpr hkey), fun key => ?_, fun inst hinst => ?_⟩
  · rw [hdue]
    exact h.touched key
  · refine h.reverted inst (hinst.imp_right ?_)
    rintro ⟨e, he, heq, hfalse⟩
    rcases List.mem_cons.mp he with rfl | he
    · rw [hpending] at hfalse
      cases hfalse
    · exact ⟨e, he, heq, hfalse⟩

/-- A round that gives up an operation, then the others. -/
theorem Rounds.due {s' : DeviceSession P} (h : Underway s₀ s)
    (hdue : s₀.pending timeout entry.2 = false)
    (hrounds : Rounds timeout s₀ ((s.withoutOperation entry.1).withDownload entry.2.args.inst
      (s₀.lastTime entry.2.args.inst)) s' entries) :
    Rounds timeout s₀ s s' (entry :: entries) := by
  have herase : ∀ key, (s.withoutOperation entry.1).operations.get? key
      = if key = entry.1 then none else s.operations.get? key := InsMap.get?_erase _ _
  obtain ⟨-, hhere, hothers⟩ := (h.withoutOperation entry.1).withDownload entry.2.args.inst
  refine ⟨hrounds.underway, fun key hkey => ?_, fun key hkey => ?_, fun key => ?_,
    fun inst hinst => ?_⟩
  · by_cases hrest : Due timeout s₀ entries key
    · exact hrounds.erased key hrest
    · obtain ⟨e, he, heq, hfalse⟩ := hkey
      rcases List.mem_cons.mp he with rfl | he
      · rw [hrounds.kept key hrest]
        show (s.withoutOperation e.1).operations.get? key = none
        rw [herase, if_pos heq.symm]
      · exact absurd ⟨e, he, heq, hfalse⟩ hrest
  · rw [hrounds.kept key fun ⟨e, he, hrest⟩ => hkey ⟨e, List.mem_cons_of_mem _ he, hrest⟩]
    show (s.withoutOperation entry.1).operations.get? key = _
    rw [herase, if_neg fun heq => hkey ⟨entry, List.mem_cons_self .., heq.symm, hdue⟩]
  · rw [hrounds.touched]
    show key ∈ s.touchOperation entry.1 ∨ _ ↔ _
    rw [mem_touchOperation]
    constructor
    · rintro ((rfl | hkey) | ⟨e, he, hrest⟩)
      · exact Or.inr ⟨entry, List.mem_cons_self .., rfl, hdue⟩
      · exact Or.inl hkey
      · exact Or.inr ⟨e, List.mem_cons_of_mem _ he, hrest⟩
    · rintro (hkey | ⟨e, he, heq, hrest⟩)
      · exact Or.inl (Or.inr hkey)
      · rcases List.mem_cons.mp he with rfl | he
        · exact Or.inl (Or.inl heq.symm)
        · exact Or.inr ⟨e, he, heq, hrest⟩
  · refine hrounds.reverted inst ?_
    rcases hinst with hinst | ⟨e, he, rfl, hrest⟩
    · exact Or.inl (hothers inst hinst)
    · rcases List.mem_cons.mp he with rfl | he
      · exact Or.inl hhere
      · exact Or.inr ⟨e, he, rfl, hrest⟩

/-- Without success on timeout the loop gives up what is due, one by one. -/
theorem loop_ok (h : Underway s₀ s) (hsuccess : success.truthy = false)
    (htime : ∀ e ∈ entries, s₀.pending timeout e.2 = false → s₀.HasTime e.2.args.inst) :
    ∃ s', entries.foldlM (timeoutOperation timeout success) (s, faults, operations)
        = .ok (s',
          faults ++ ((entries.filter fun e => !s₀.pending timeout e.2).map Prod.snd).map
            timeoutFault,
          operations ++ (entries.filter fun e => !s₀.pending timeout e.2).map Prod.snd)
      ∧ Rounds timeout s₀ s s' entries := by
  induction entries generalizing s faults operations with
  | nil => exact ⟨s, by simp; rfl, h, by simp [Due], by simp, by simp [Due], by simp⟩
  | cons entry entries ih =>
      have htime' : ∀ e ∈ entries, s₀.pending timeout e.2 = false → s₀.HasTime e.2.args.inst :=
        fun e he => htime e (List.mem_cons_of_mem _ he)
      rw [List.foldlM_cons]
      cases hpending : s₀.pending timeout entry.2 with
      | true =>
          obtain ⟨s', hrun, hrounds⟩ := @ih s faults operations h htime'
          rw [timeoutOperation_pending ((h.pending _).trans hpending)]
          refine ⟨s', ?_, hrounds.pending hpending⟩
          show List.foldlM _ _ _ = _
          rw [hrun]
          simp [hpending]
      | false =>
          have hinst := htime entry (List.mem_cons_self ..) hpending
          obtain ⟨hnext, -, -⟩ := (h.withoutOperation entry.1).withDownload entry.2.args.inst
          obtain ⟨s', hrun, hrounds⟩ := @ih _ (faults ++ [timeoutFault entry.2])
            (operations ++ [entry.2]) hnext htime'
          rw [timeoutOperation_ok h hsuccess ((h.pending _).trans hpending) hinst]
          refine ⟨s', ?_, Rounds.due h hpending hrounds⟩
          show List.foldlM _ _ _ = _
          rw [hrun]
          simp [hpending]

/-- It does not come to its end if there is no time to go back to. -/
theorem loop_error (h : Underway s₀ s) (hsuccess : success.truthy = false)
    (htime : ∃ e ∈ entries, s₀.pending timeout e.2 = false ∧ ¬ s₀.HasTime e.2.args.inst) :
    entries.foldlM (timeoutOperation timeout success) (s, faults, operations)
      = .error .typeError := by
  induction entries generalizing s faults operations with
  | nil => exact absurd htime (by simp)
  | cons entry entries ih =>
      rw [List.foldlM_cons]
      cases hpending : s₀.pending timeout entry.2 with
      | true =>
          rw [timeoutOperation_pending ((h.pending _).trans hpending)]
          show List.foldlM _ _ _ = _
          refine ih h ?_
          obtain ⟨e, he, hdue, hrest⟩ := htime
          rcases List.mem_cons.mp he with rfl | he
          · rw [hpending] at hdue
            cases hdue
          · exact ⟨e, he, hdue, hrest⟩
      | false =>
          by_cases hinst : s₀.HasTime entry.2.args.inst
          · obtain ⟨hnext, -, -⟩ := (h.withoutOperation entry.1).withDownload entry.2.args.inst
            rw [timeoutOperation_ok h hsuccess ((h.pending _).trans hpending) hinst]
            show List.foldlM _ _ _ = _
            refine ih hnext ?_
            obtain ⟨e, he, hdue, hrest⟩ := htime
            rcases List.mem_cons.mp he with rfl | he
            · exact absurd hinst hrest
            · exact ⟨e, he, hdue, hrest⟩
          · rw [timeoutOperation_error h hsuccess ((h.pending _).trans hpending) hinst]
            rfl

end Loop

/-! ## When operations time out as they should -/

theorem older_of_some {x : WithBot (WithTop ℚ)} (operation : Operation P) :
    s.older (some x) operation = !s.pending (some x) operation := by
  rw [Bool.eq_iff_iff, Bool.not_eq_true', older, pending, decide_eq_true_eq,
    decide_eq_false_iff_not, not_lt]

variable {s timeout success}

/-- Without a timeout that is a number everything is due, and nothing too old. -/
theorem TimesOut.some (htree : s.deviceData.Tree 99) (h : s.TimesOut timeout success)
    (hnan : timeout = none) : s.operations.entries = [] := by
  subst hnan
  by_contra hne
  obtain ⟨entry, hentry⟩ := List.exists_mem_of_ne_nil _ hne
  have hstored := InsMap.get?_eq_some.mpr hentry
  obtain ⟨s', faults, operations, hrun, hleft, -⟩ := h
  rw [timeoutOperations] at hrun
  cases hsuccess : success.truthy with
  | true =>
      rw [loop_success hsuccess fun e he => InsMap.get?_eq_some.mpr he,
        if_neg fun hall => Bool.false_ne_true (hall entry hentry)] at hrun
      cases hrun
  | false =>
      by_cases htime : ∃ e ∈ s.operations.entries,
          s.pending none e.2 = false ∧ ¬ s.HasTime e.2.args.inst
      · rw [loop_error (Underway.start htree) hsuccess htime] at hrun
        cases hrun
      · push Not at htime
        obtain ⟨s'', hrun', hrounds⟩ :=
          @loop_ok P s s none success s.operations.entries [] [] (Underway.start htree) hsuccess
            htime
        rw [hrun] at hrun'
        obtain rfl := (Prod.mk.inj (Except.ok.inj hrun')).1
        have hgone := hrounds.erased entry.1 ⟨entry, hentry, rfl, rfl⟩
        rw [hleft entry.1 entry.2 hstored] at hgone
        cases hgone

/-- What is due is what is too old, with a timeout that is a number. -/
theorem pending_eq (hnan : timeout = none → s.operations.entries = [])
    {e : JsString × Operation P} (he : e ∈ s.operations.entries) :
    s.older timeout e.2 = !s.pending timeout e.2 := by
  cases timeout with
  | none =>
      rw [hnan rfl] at he
      cases he
  | some x => exact older_of_some s e.2

theorem TimesOut.timeable (htree : s.deviceData.Tree 99) (h : s.TimesOut timeout success) :
    s.Timeable timeout success := by
  have hnan := h.some htree
  refine ⟨hnan, fun key operation hkey hold => ?_⟩
  have hentry : (key, operation) ∈ s.operations.entries := InsMap.get?_eq_some.mp hkey
  have hdue : s.pending timeout operation = false := by
    have heq := pending_eq hnan hentry
    rw [hold] at heq
    simpa using heq.symm
  obtain ⟨s', faults, operations, hrun, -, -, hrest⟩ := h
  rw [timeoutOperations] at hrun
  cases hsuccess : success.truthy with
  | true =>
      rw [loop_success hsuccess fun e he => InsMap.get?_eq_some.mpr he,
        if_neg fun hall => Bool.false_ne_true (hdue.symm.trans (hall _ hentry))] at hrun
      cases hrun
  | false =>
      rw [if_neg (by rw [hsuccess]; exact Bool.false_ne_true)] at hrest
      by_cases htime : ∃ e ∈ s.operations.entries,
          s.pending timeout e.2 = false ∧ ¬ s.HasTime e.2.args.inst
      · rw [loop_error (Underway.start htree) hsuccess htime] at hrun
        cases hrun
      · push Not at htime
        obtain ⟨s'', hrun', hrounds⟩ :=
          @loop_ok P s s timeout success s.operations.entries [] [] (Underway.start htree)
            hsuccess htime
        rw [hrun] at hrun'
        obtain rfl := (Prod.mk.inj (Except.ok.inj hrun')).1
        refine ⟨rfl, htime _ hentry hdue, fun v hv => ?_⟩
        have hvalue := hrest.2.2 operation (by
          rw [hrest.1]
          exact List.mem_map.mpr ⟨_, List.mem_filter.mpr ⟨hentry, hold⟩, rfl⟩)
        have hstands := (hrounds.reverted operation.args.inst
          (Or.inr ⟨_, hentry, rfl, hdue⟩)).valueOf
        rw [hv] at hstands
        exact Option.some.inj (hstands.symm.trans hvalue)

theorem Timeable.timesOut (htree : s.deviceData.Tree 99) (h : s.Timeable timeout success) :
    s.TimesOut timeout success := by
  obtain ⟨hnan, hold⟩ := h
  have hdue : ∀ e ∈ s.operations.entries, s.pending timeout e.2 = !s.older timeout e.2 := by
    intro e he
    rw [pending_eq hnan he, Bool.not_not]
  have hkeyed : ∀ key, Due timeout s s.operations.entries key
      ↔ ∃ operation, s.operations.get? key = some operation
        ∧ s.older timeout operation = true := by
    intro key
    constructor
    · rintro ⟨e, he, rfl, hpending⟩
      rw [hdue e he] at hpending
      exact ⟨e.2, InsMap.get?_eq_some.mpr he, by simpa using hpending⟩
    · rintro ⟨operation, hkey, holder⟩
      have hentry := InsMap.get?_eq_some.mp hkey
      refine ⟨_, hentry, rfl, ?_⟩
      rw [hdue _ hentry, holder]
      rfl
  cases hsuccess : success.truthy with
  | true =>
      have hnone : ∀ key operation, s.operations.get? key = some operation →
          s.older timeout operation = false := by
        intro key operation hkey
        rw [← Bool.not_eq_true]
        intro holder
        rw [(hold key operation hkey holder).1] at hsuccess
        cases hsuccess
      refine ⟨s, [], [], ?_, fun key operation hkey => ?_, fun key => ?_, ?_⟩
      · rw [timeoutOperations, loop_success hsuccess fun e he => InsMap.get?_eq_some.mpr he,
          if_pos]
        intro e he
        rw [hdue e he, hnone e.1 e.2 (InsMap.get?_eq_some.mpr he)]
        rfl
      · rw [hkey, hnone key operation hkey]
        rfl
      · refine (or_iff_left ?_).symm
        rintro ⟨operation, hkey, holder⟩
        rw [hnone key operation hkey] at holder
        cases holder
      · rw [if_pos hsuccess]
        refine ⟨rfl, rfl, fun key operation hkey holder => ?_⟩
        rw [hnone key operation hkey] at holder
        cases holder
  | false =>
      have htime : ∀ e ∈ s.operations.entries, s.pending timeout e.2 = false →
          s.HasTime e.2.args.inst := by
        intro e he hpending
        rw [hdue e he] at hpending
        exact (hold e.1 e.2 (InsMap.get?_eq_some.mpr he) (by simpa using hpending)).2.1
      obtain ⟨s', hrun, hrounds⟩ :=
        @loop_ok P s s timeout success s.operations.entries [] [] (Underway.start htree) hsuccess
          htime
      have hfilter : (s.operations.entries.filter fun e => !s.pending timeout e.2)
          = s.operations.entries.filter fun e => s.older timeout e.2 :=
        List.filter_congr fun e he => (pending_eq hnan he).symm
      rw [List.nil_append, List.nil_append, hfilter] at hrun
      refine ⟨s', _, _, hrun, fun key operation hkey => ?_, fun key => ?_, ?_⟩
      · split_ifs with holder
        · exact hrounds.erased key ((hkeyed key).mpr ⟨operation, hkey, holder⟩)
        · rw [hrounds.kept key, hkey]
          rw [hkeyed]
          rintro ⟨operation', hkey', holder'⟩
          obtain rfl := Option.some.inj (hkey.symm.trans hkey')
          exact holder holder'
      · rw [hrounds.touched, hkeyed]
      · rw [if_neg (by rw [hsuccess]; exact Bool.false_ne_true)]
        refine ⟨rfl, rfl, fun operation hmem => ?_⟩
        obtain ⟨e, he, rfl⟩ := List.mem_map.mp hmem
        obtain ⟨hentry, holder⟩ := List.mem_filter.mp he
        have hstored := InsMap.get?_eq_some.mpr hentry
        have hstands := (hrounds.reverted e.2.args.inst
          (Or.inr ⟨e, hentry, rfl, by rw [hdue e hentry, holder]; rfl⟩)).valueOf
        rw [downloadValue, hstands]
        cases hheld : s.heldDownload e.2.args.inst with
        | none => rfl
        | some v => exact congrArg some ((hold e.1 e.2 hstored holder).2.2 v hheld)

/-- Operations time out as they should just when the timeout is a number, and
those that are too old are to fail and have a time to go back to. -/
theorem timesOut_iff (htree : s.deviceData.Tree 99) :
    s.TimesOut timeout success ↔ s.Timeable timeout success :=
  ⟨TimesOut.timeable htree, Timeable.timesOut htree⟩

/-- An hour and a second after a download was deferred. -/
def overdueSession : DeviceSession Unit :=
  { newSession 3602000 with
    operations := InsMap.empty.set firmware.commandKey ((newSession 1000).operationOf firmware) }

theorem timesOut_overdue :
    overdueSession.TimesOut (.ofRat 3600) (.ofRat 0)
      ↔ overdueSession.Timeable (.ofRat 3600) (.ofRat 0) :=
  timesOut_iff (DeviceData.tree_init 99)

/-- With success on timeout nothing times out: the request made up for
`transferComplete` has no `faultStruct`. -/
theorem success_throws : overdueSession.deviceData = initDeviceData
    ∧ ¬ overdueSession.TimesOut (.ofRat 3600) (.ofRat 1) := by
  refine ⟨rfl, fun ⟨s', faults, operations, hrun, _⟩ => ?_⟩
  have hthrows : (overdueSession.timeoutOperations (.ofRat 3600) (.ofRat 1)).toBool = false := by
    decide +kernel
  rw [hrun] at hthrows
  cases hthrows

end DeviceSession

end GenieAcs
