import GenieAcs.Expression
import GenieAcs.ProvisionChannels

/-!
# Faults of a session

`recordFault` of `lib/cwmp.ts`: a fault is recorded for every channel that has
provisions, each with its own provisions behind those it has from an earlier
fault, and the provisions of the session are cleared. `appendProvisions` takes
the repeated ones out.
-/

namespace GenieAcs

structure Fault where
  code : String
  message : String
  timestamp : Option Nat := none

structure SessionFault (P : Type) where
  code : String
  message : String
  timestamp : Nat
  provisions : List P
  retryNow : Bool := false
  precondition : Bool := false
  expiry : Option Nat := none

/-- A task; `id` is its `_id`. -/
structure Task (P : Type) where
  id : String
  name : String
  parameterNames : List JsString := []
  parameterValues : List (JsString × Option Value) := []
  objectName : JsString := []
  fileType : JsString := []
  fileName : JsString := []
  targetFileName : JsString := []
  expiry : Option Nat := none
  provisions : List P := []

/-- What a session context has on tasks and faults. -/
structure SessionContext (P : Type) where
  timestamp : Nat
  provisioning : Provisioning P := {}
  tasks : List (Task P) := []
  faults : InsMap Channel (SessionFault P) := InsMap.empty
  retries : InsMap Channel Nat := InsMap.empty
  faultsTouched : List Channel := []
  doneTasks : List String := []
  presetCycles : Nat := 0

namespace SessionContext

variable {P K : Type}

def clearProvisions (s : SessionContext P) : SessionContext P :=
  { s with provisioning := Provisioning.clearProvisions }

/-! ## appendProvisions -/

section

variable [DecidableEq K] (json : P → K)

/-- The loop over `original` from index `j` down, for a provision that is the
`rest`th from the end. It is not kept if one of those put in behind it is the
same; otherwise the same one before them goes. -/
def dropSame (text : K) (rest : Nat) : Nat → List P × Bool × Bool → List P × Bool × Bool
  | 0, r => r
  | j + 1, (original, keep, modified) =>
      match original[j]? with
      | none => dropSame text rest j (original, keep, modified)
      | some q =>
          if json q = text then
            if !keep || decide (original.length ≤ j + rest) then
              dropSame text rest j (original, false, modified)
            else dropSame text rest j (original.eraseIdx j, keep, true)
          else dropSame text rest j (original, keep, modified)

/-- `original.splice(start, 0, p)`. -/
def spliceAt (original : List P) (start : Int) (p : P) : List P :=
  original.insertIdx
    (if start < 0 then (original.length + start).toNat else min start.toNat original.length) p

/-- The loop over `toAppend` from its end; `rest` counts from there. -/
def appendFrom (rest : Nat) : List P → List P × Bool → List P × Bool
  | [], r => r
  | p :: before, (original, modified) =>
      let (original, keep, modified) :=
        dropSame json (json p) rest original.length (original, true, modified)
      if keep then
        appendFrom (rest + 1) before (spliceAt original (original.length - rest + 1) p, true)
      else appendFrom (rest + 1) before (original, modified)

/-- The list and whether it was modified. -/
def appendProvisions (original toAppend : List P) : List P × Bool :=
  appendFrom json 1 toAppend.reverse (original, false)

end

/-! ## recordFault -/

/-- The fault is put in the place of the channel's, whose provisions it takes. -/
def chargeChannel (fault : Fault) (channels : InsMap Channel Mask) (s : SessionContext P)
    (channel : Channel) : SessionContext P :=
  let retried := s.retries.get? channel
  let expiry :=
    match channel with
    | .task id => s.tasks.foldl (fun e t =>
        if t.id = id ∧ t.expiry.getD 0 ≠ 0 then t.expiry else e) none
    | .named _ => none
  { s with
    faults := s.faults.set channel
      { code := fault.code
        message := fault.message
        timestamp := fault.timestamp.getD s.timestamp
        provisions := ((s.faults.get? channel).map SessionFault.provisions).getD []
        retryNow := decide (retried = none ∧ channels.keys.length ≠ 1)
        precondition := decide (channels.get? channel = some 0)
        expiry }
    retries := s.retries.set channel (match retried with | some n => n + 1 | none => 0)
    faultsTouched := channel :: s.faultsTouched }

/-- Change the provisions of the fault of a channel. -/
def updateFault (faults : InsMap Channel (SessionFault P)) (channel : Channel)
    (f : List P → List P) : InsMap Channel (SessionFault P) :=
  match faults.get? channel with
  | some fault => faults.set channel { fault with provisions := f fault.provisions }
  | none => faults

/-- Provision `i` goes to the fault of every channel that has the bit. -/
def pushProvision (channels : InsMap Channel Mask) (faults : InsMap Channel (SessionFault P))
    (provision : P × Nat) : InsMap Channel (SessionFault P) :=
  channels.keys.foldl (fun faults channel =>
    if ((channels.get? channel).getD 0).test provision.2 then
      updateFault faults channel (· ++ [provision.1])
    else faults) faults

/-- `none` is the error "Fault not associated with a channel!". -/
def recordFault [DecidableEq K] (json : P → K) (s : SessionContext P) (fault : Fault)
    (provisions : List P) (channels : InsMap Channel Mask) : Option (SessionContext P) :=
  if channels.keys = [] then none
  else
    let s := channels.keys.foldl (chargeChannel fault channels) s
    let faults := provisions.zipIdx.foldl (pushProvision channels) s.faults
    let faults := channels.keys.foldl (fun faults channel =>
      updateFault faults channel fun provs => (appendProvisions json [] provs).1) faults
    some { s with faults }.clearProvisions

/-! ## What appendProvisions has in the end -/

section

variable [DecidableEq K] {json : P → K}

theorem mem_dropSame {text t : K} (ht : t ≠ text) (rest steps : Nat) :
    ∀ r : List P × Bool × Bool,
      (t ∈ (dropSame json text rest steps r).1.map json ↔ t ∈ r.1.map json) := by
  induction steps with
  | zero => exact fun _ => Iff.rfl
  | succ j ih =>
      rintro ⟨original, keep, modified⟩
      unfold dropSame
      cases hq : original[j]? with
      | none => exact ih _
      | some q =>
          dsimp only
          split_ifs with htext hkeep
          · exact ih _
          · rw [ih]
            obtain ⟨hlt, hget⟩ := List.getElem?_eq_some_iff.mp hq
            rw [← List.eraseIdx_map, List.mem_eraseIdx_iff_getElem?]
            constructor
            · rintro ⟨k, _, hk⟩
              exact List.mem_of_getElem? hk
            · intro hmem
              obtain ⟨k, hk⟩ := List.mem_iff_getElem?.mp hmem
              refine ⟨k, ?_, hk⟩
              rintro rfl
              rw [List.getElem?_map, hq] at hk
              exact ht ((Option.some.inj hk).symm.trans htext)
          · exact ih _

/-- What is not kept is still in the list. -/
theorem mem_dropSame_self {text : K} (rest steps : Nat) :
    ∀ r : List P × Bool × Bool, (r.2.1 = false → text ∈ r.1.map json) →
      (dropSame json text rest steps r).2.1 = false →
        text ∈ (dropSame json text rest steps r).1.map json := by
  induction steps with
  | zero => exact fun _ h => h
  | succ j ih =>
      rintro ⟨original, keep, modified⟩ h
      unfold dropSame
      cases hq : original[j]? with
      | none => exact ih _ h
      | some q =>
          dsimp only
          split_ifs with htext hkeep
          · apply ih
            exact fun _ => htext ▸ List.mem_map_of_mem (List.mem_of_getElem? hq)
          · apply ih
            intro hfalse
            exact absurd (show keep = false from hfalse) (by simp_all)
          · exact ih _ h

theorem mem_spliceAt (original : List P) (start : Int) (p q : P) :
    q ∈ spliceAt original start p ↔ q = p ∨ q ∈ original := by
  rw [spliceAt, List.mem_insertIdx]
  split_ifs <;> omega

theorem mem_appendFrom (t : K) (before : List P) :
    ∀ (rest : Nat) (r : List P × Bool), 1 ≤ rest →
      (t ∈ (appendFrom json rest before r).1.map json
        ↔ t ∈ r.1.map json ∨ t ∈ before.map json) := by
  induction before with
  | nil => simp [appendFrom]
  | cons p before ih =>
      rintro rest ⟨original, modified⟩ hrest
      unfold appendFrom
      have hother := fun ht => @mem_dropSame P K _ json (json p) t ht rest original.length
        (original, true, modified)
      have hself := @mem_dropSame_self P K _ json (json p) rest original.length
        (original, true, modified) (by simp)
      cases hd : dropSame json (json p) rest original.length (original, true, modified) with
      | mk original' r' =>
          obtain ⟨keep, modified'⟩ := r'
          rw [hd] at hother hself
          dsimp only
          split_ifs with hkeep
          · rw [ih _ _ (by omega)]
            have hsplice : t ∈ (spliceAt original' (original'.length - rest + 1) p).map json
                ↔ t = json p ∨ t ∈ original'.map json := by
              simp only [List.mem_map, mem_spliceAt original' _ p]
              constructor
              · rintro ⟨q, rfl | hq, rfl⟩
                · exact Or.inl rfl
                · exact Or.inr ⟨q, hq, rfl⟩
              · rintro (rfl | ⟨q, hq, rfl⟩)
                · exact ⟨p, Or.inl rfl, rfl⟩
                · exact ⟨q, Or.inr hq, rfl⟩
            rw [hsplice, List.map_cons, List.mem_cons]
            by_cases ht : t = json p
            · simp [ht]
            · rw [hother ht]
              simp [ht]
          · rw [ih _ _ (by omega), List.map_cons, List.mem_cons]
            by_cases ht : t = json p
            · have hin := hself (by simpa using hkeep)
              rw [← ht] at hin
              exact iff_of_true (Or.inl hin) (Or.inr (Or.inl ht))
            · rw [hother ht]
              simp [ht]

/-- Appending loses no provision and adds no other. -/
theorem mem_appendProvisions (original toAppend : List P) (t : K) :
    t ∈ (appendProvisions json original toAppend).1.map json
      ↔ t ∈ original.map json ∨ t ∈ toAppend.map json := by
  rw [appendProvisions, mem_appendFrom t _ 1 _ (Nat.le_refl 1)]
  simp

end

/-! ## What recordFault records -/

/-- The provisions of the fault of a channel, if it has one. -/
def provisionsOf (faults : InsMap Channel (SessionFault P)) (c : Channel) : List P :=
  ((faults.get? c).map SessionFault.provisions).getD []

section

variable {faults : InsMap Channel (SessionFault P)} {c d : Channel}

theorem get?_updateFault_of_ne (h : c ≠ d) (f : List P → List P) :
    (updateFault faults d f).get? c = faults.get? c := by
  rw [updateFault]
  cases faults.get? d with
  | none => rfl
  | some fault => exact faults.get?_set_of_ne h _

theorem isSome_updateFault (f : List P → List P) :
    ((updateFault faults d f).get? c).isSome = (faults.get? c).isSome := by
  by_cases h : c = d
  · subst h
    rw [updateFault]
    cases hc : faults.get? c with
    | none => rw [hc]
    | some fault =>
        dsimp only
        rw [InsMap.get?_set_self]
        rfl
  · rw [get?_updateFault_of_ne h]

theorem provisionsOf_updateFault_self (f : List P → List P) (h : (faults.get? c).isSome) :
    provisionsOf (updateFault faults c f) c = f (provisionsOf faults c) := by
  obtain ⟨fault, hc⟩ := Option.isSome_iff_exists.mp h
  rw [provisionsOf, provisionsOf, updateFault, hc]
  dsimp only
  rw [InsMap.get?_set_self]
  rfl

/-- One change to the faults of some of the channels. -/
theorem updateFaults_spec (g : Channel → Bool) (f : List P → List P) (cs : List Channel)
    (hnodup : cs.Nodup) :
    ∀ faults : InsMap Channel (SessionFault P), (∀ c ∈ cs, (faults.get? c).isSome) →
      let r := cs.foldl (fun faults c => if g c then updateFault faults c f else faults) faults
      (∀ c, (r.get? c).isSome = (faults.get? c).isSome)
      ∧ (∀ c, c ∉ cs → r.get? c = faults.get? c)
      ∧ ∀ c ∈ cs, provisionsOf r c
          = if g c then f (provisionsOf faults c) else provisionsOf faults c := by
  induction cs with
  | nil =>
      intro faults _
      exact ⟨fun _ => rfl, fun _ _ => rfl, fun _ h => by cases h⟩
  | cons d cs ih =>
      intro faults hhas r
      obtain ⟨hd, hcs⟩ := List.nodup_cons.mp hnodup
      obtain ⟨faults', hstep, hsome, hne, hself⟩ : ∃ faults',
          (if g d then updateFault faults d f else faults) = faults'
          ∧ (∀ c, (faults'.get? c).isSome = (faults.get? c).isSome)
          ∧ (∀ c, c ≠ d → faults'.get? c = faults.get? c)
          ∧ provisionsOf faults' d
            = if g d then f (provisionsOf faults d) else provisionsOf faults d := by
        refine ⟨_, rfl, ?_⟩
        split_ifs with hg
        · refine ⟨fun c => isSome_updateFault f, fun c h => get?_updateFault_of_ne h f, ?_⟩
          exact provisionsOf_updateFault_self f (hhas d (List.mem_cons_self ..))
        · exact ⟨fun _ => rfl, fun _ _ => rfl, rfl⟩
      have hr : r = cs.foldl (fun faults c => if g c then updateFault faults c f else faults)
          faults' := by rw [← hstep]; rfl
      obtain ⟨h₁, h₂, h₃⟩ := ih hcs faults' fun c hc => by
        rw [hsome]
        exact hhas c (List.mem_cons_of_mem _ hc)
      refine ⟨?_, ?_, ?_⟩
      · intro c
        rw [hr, h₁, hsome]
      · intro c hc
        rw [List.mem_cons, not_or] at hc
        rw [hr, h₂ c hc.2, hne c hc.1]
      · intro c hc
        rcases List.mem_cons.mp hc with rfl | hc
        · rw [hr, provisionsOf, h₂ c hd]
          exact hself
        · have hcd : c ≠ d := fun heq => hd (heq ▸ hc)
          rw [hr, h₃ c hc, provisionsOf, provisionsOf, hne c hcd]

/-- The provisions that go to the fault of a channel with this integer. -/
def chosen (m : Mask) (provisions : List (P × Nat)) : List P :=
  (provisions.filter fun p => m.test p.2).map Prod.fst

theorem chosen_cons (m : Mask) (p : P × Nat) (provisions : List (P × Nat)) :
    chosen m (p :: provisions)
      = if m.test p.2 then p.1 :: chosen m provisions else chosen m provisions := by
  rw [chosen, List.filter_cons]
  split_ifs with h
  · rfl
  · rfl

theorem pushProvisions_spec {channels : InsMap Channel Mask} (provisions : List (P × Nat)) :
    ∀ faults : InsMap Channel (SessionFault P),
      (∀ c ∈ channels.keys, (faults.get? c).isSome) →
      let r := provisions.foldl (pushProvision channels) faults
      (∀ c, (r.get? c).isSome = (faults.get? c).isSome)
      ∧ (∀ c, c ∉ channels.keys → r.get? c = faults.get? c)
      ∧ ∀ c ∈ channels.keys, provisionsOf r c
          = provisionsOf faults c ++ chosen ((channels.get? c).getD 0) provisions := by
  induction provisions with
  | nil =>
      intro faults _
      exact ⟨fun _ => rfl, fun _ _ => rfl, fun c _ => (List.append_nil _).symm⟩
  | cons p provisions ih =>
      intro faults hhas r
      obtain ⟨h₁, h₂, h₃⟩ := updateFaults_spec
        (fun c => ((channels.get? c).getD 0).test p.2) (· ++ [p.1]) channels.keys channels.nodup
        faults hhas
      obtain ⟨h₁', h₂', h₃'⟩ := ih (pushProvision channels faults p) fun c hc => by
        rw [pushProvision, h₁]
        exact hhas c hc
      refine ⟨fun c => (h₁' c).trans (h₁ c), fun c hc => (h₂' c hc).trans (h₂ c hc), ?_⟩
      intro c hc
      rw [show r = provisions.foldl (pushProvision channels) (pushProvision channels faults p)
        from rfl, h₃' c hc, pushProvision, h₃ c hc, chosen_cons]
      split_ifs with ht
      · rw [List.append_assoc, List.singleton_append]
      · rfl

theorem chargeChannel_faults (fault : Fault) (channels : InsMap Channel Mask)
    (s : SessionContext P) (c : Channel) :
    ∃ f, (chargeChannel fault channels s c).faults = s.faults.set c f
      ∧ f.provisions = provisionsOf s.faults c := ⟨_, rfl, rfl⟩

theorem chargeChannel_spec (fault : Fault) (channels : InsMap Channel Mask) (cs : List Channel)
    (hnodup : cs.Nodup) :
    ∀ s : SessionContext P,
      let r := cs.foldl (chargeChannel fault channels) s
      (∀ c, (r.faults.get? c).isSome = (decide (c ∈ cs) || (s.faults.get? c).isSome))
      ∧ (∀ c, c ∉ cs → r.faults.get? c = s.faults.get? c)
      ∧ ∀ c, provisionsOf r.faults c = provisionsOf s.faults c := by
  induction cs with
  | nil => exact fun s => ⟨fun _ => rfl, fun _ _ => rfl, fun _ => rfl⟩
  | cons d cs ih =>
      intro s r
      obtain ⟨hd, hcs⟩ := List.nodup_cons.mp hnodup
      obtain ⟨h₁, h₂, h₃⟩ := ih hcs (chargeChannel fault channels s d)
      obtain ⟨f, hf, hprov⟩ := chargeChannel_faults fault channels s d
      have hget : ∀ c, c ≠ d →
          (chargeChannel fault channels s d).faults.get? c = s.faults.get? c := by
        intro c hc
        rw [hf, InsMap.get?_set_of_ne _ hc]
      have hself : (chargeChannel fault channels s d).faults.get? d = some f := by
        rw [hf, InsMap.get?_set_self]
      refine ⟨?_, ?_, ?_⟩
      · intro c
        rw [show r = cs.foldl (chargeChannel fault channels) (chargeChannel fault channels s d)
          from rfl, h₁]
        by_cases hc : c = d
        · rw [hc, hself]
          simp
        · rw [hget c hc]
          simp [hc]
      · intro c hc
        rw [List.mem_cons, not_or] at hc
        exact (h₂ c hc.2).trans (hget c hc.1)
      · intro c
        refine (h₃ c).trans ?_
        by_cases hc : c = d
        · rw [hc, provisionsOf, hself]
          exact hprov
        · rw [provisionsOf, provisionsOf, hget c hc]

/-- What recording a fault does to the faults and to the provisions. -/
theorem recordFault_spec [DecidableEq K] (json : P → K) (s : SessionContext P) (fault : Fault)
    (provisions : List P) {channels : InsMap Channel Mask} (h : channels.keys ≠ []) :
    ∃ s', recordFault json s fault provisions channels = some s'
      ∧ s'.provisioning = Provisioning.clearProvisions
      ∧ (∀ c ∉ channels.keys, s'.faults.get? c = s.faults.get? c)
      ∧ (∀ c ∈ channels.keys, (s'.faults.get? c).isSome)
      ∧ ∀ c ∈ channels.keys, ∀ t, t ∈ (provisionsOf s'.faults c).map json
          ↔ t ∈ (provisionsOf s.faults c).map json
            ∨ t ∈ (chosen ((channels.get? c).getD 0) provisions.zipIdx).map json := by
  obtain ⟨h₁, h₂, h₃⟩ := chargeChannel_spec fault channels channels.keys channels.nodup s
  have hhas : ∀ c ∈ channels.keys,
      ((channels.keys.foldl (chargeChannel fault channels) s).faults.get? c).isSome := by
    intro c hc
    rw [h₁]
    simp [hc]
  obtain ⟨k₁, k₂, k₃⟩ := pushProvisions_spec provisions.zipIdx
    (channels.keys.foldl (chargeChannel fault channels) s).faults hhas
  obtain ⟨l₁, l₂, l₃⟩ := updateFaults_spec (fun _ => true)
    (fun provs => (appendProvisions json [] provs).1) channels.keys channels.nodup _
    (fun c hc => (k₁ c).trans (hhas c hc))
  refine ⟨_, by rw [recordFault, if_neg h], rfl, ?_, ?_, ?_⟩
  · exact fun c hc => (l₂ c hc).trans ((k₂ c hc).trans (h₂ c hc))
  · exact fun c hc => (l₁ c).trans ((k₁ c).trans (hhas c hc))
  · intro c hc t
    have hlast := l₃ c hc
    rw [if_pos rfl, k₃ c hc, h₃ c] at hlast
    dsimp only [clearProvisions]
    simp only [if_true] at hlast
    rw [hlast, mem_appendProvisions, List.map_append, List.mem_append]
    simp

/-- A fault of what the session is running. -/
def recordSessionFault [DecidableEq K] (json : P → K) (s : SessionContext P) (fault : Fault) :
    Option (SessionContext P) :=
  recordFault json s fault s.provisioning.provisions s.provisioning.channels

end

/-! ## Who is charged -/

section

open Provisioning (actions additions after Fitting)

variable [DecidableEq K] {json : P → K}

omit [DecidableEq K] in
/-- With the bits right, the provisions chosen for a channel are those that
were added under it. -/
theorem mem_chosen {s : Provisioning P} {added : List (Channel × P)} (hl : Listed json s added)
    (h : Charged json s added) (c : Channel) (t : K) :
    t ∈ (chosen (s.mask c) s.provisions.zipIdx).map json ↔ AddedUnder json added c t := by
  have hlen := Provisioning.Charged.length_le hl h
  have htest : ∀ i, i < s.provisions.length →
      (s.mask c).test i = (s.mask c).getLsbD i := fun i hi => Mask.test_eq (by omega)
  constructor
  · intro ht
    obtain ⟨p, hp, rfl⟩ := List.mem_map.mp ht
    obtain ⟨⟨q, i⟩, hq, rfl⟩ := List.mem_map.mp hp
    obtain ⟨hmem, hbit⟩ := List.mem_filter.mp hq
    have hi := List.mem_zipIdx_iff_getElem?.mp hmem
    dsimp only at hbit hi
    rw [htest i (List.getElem?_eq_some_iff.mp hi).1] at hbit
    obtain ⟨r, hr, hadded⟩ := (h i c).mp hbit
    obtain rfl := Option.some.inj (hi.symm.trans hr)
    exact hadded
  · intro ht
    have hmem : t ∈ s.provisions.map json := by
      obtain ⟨a, ha, _, hat⟩ := ht
      exact (hl.texts t).mpr (List.mem_map.mpr ⟨a, ha, hat⟩)
    obtain ⟨p, hp, rfl⟩ := List.mem_map.mp hmem
    obtain ⟨i, hi⟩ := List.mem_iff_getElem?.mp hp
    have hbit := (h i c).mpr ⟨p, hi, ht⟩
    rw [← htest i (List.getElem?_eq_some_iff.mp hi).1] at hbit
    refine List.mem_map_of_mem (List.mem_map.mpr ⟨(p, i), ?_, rfl⟩)
    exact List.mem_filter.mpr ⟨List.mem_zipIdx_iff_getElem?.mpr hi, hbit⟩

theorem keys_after {steps : List (Provisioning.Action P)} (h : steps ≠ []) :
    (after json steps).channels.keys ≠ [] := by
  obtain ⟨before, a, rfl⟩ := List.eq_nil_or_concat' steps |>.resolve_left h
  cases a with
  | enter c =>
      rw [Provisioning.after_concat]
      exact List.ne_nil_of_mem ((Provisioning.mem_keys_mark c c 0).mpr (Or.inl rfl))
  | add c p =>
      have hmem : (c, p) ∈ additions (before ++ [.add c p]) := by
        rw [Provisioning.additions_concat_add]
        exact List.mem_append_right _ (List.mem_singleton_self _)
      exact List.ne_nil_of_mem ((Provisioning.listed_after _).keys (c, p) hmem)

/-- While every addition fits, the bits are right all along the run, and a
fault goes to each channel with the provisions that were added under it. -/
theorem faults_charged (json : P → K) (calls : List (Channel × List P)) :
    ((∀ before, before <+: actions calls →
        Charged json (after json before) (additions before))
      ↔ Fitting json (actions calls))
    ∧ (calls ≠ [] → Fitting json (actions calls) → ∀ (s : SessionContext P) (fault : Fault),
        s.provisioning = calls.foldl (fun r call => r.addProvisions json call.1 call.2)
          Provisioning.clearProvisions →
        ∃ s', recordSessionFault json s fault = some s' ∧ ∀ c t,
          t ∈ (provisionsOf s'.faults c).map json
            ↔ t ∈ (provisionsOf s.faults c).map json
              ∨ AddedUnder json (additions (actions calls)) c t) := by
  refine ⟨Provisioning.charged_after (actions calls), ?_⟩
  intro hne hfits s fault hs
  rw [Provisioning.after_actions] at hs
  have hcharged := (Provisioning.charged_after (actions calls)).mpr hfits _ (List.prefix_refl _)
  have hlisted := @Provisioning.listed_after P K _ json (actions calls)
  rw [← hs] at hcharged hlisted
  have hkeys : s.provisioning.channels.keys ≠ [] := by
    rw [hs]
    apply keys_after
    obtain ⟨call, calls, rfl⟩ := List.exists_cons_of_ne_nil hne
    exact List.cons_ne_nil _ _
  obtain ⟨s', hrecord, _, hout, _, hin⟩ := recordFault_spec json s fault
    s.provisioning.provisions hkeys
  refine ⟨s', hrecord, ?_⟩
  intro c t
  by_cases hc : c ∈ s.provisioning.channels.keys
  · rw [hin c hc t, ← mem_chosen hlisted hcharged]
    rfl
  · have hno : ¬ AddedUnder json (additions (actions calls)) c t := by
      rintro ⟨a, ha, rfl, _⟩
      exact hc (hlisted.keys a ha)
    rw [provisionsOf, hout c hc, provisionsOf, or_iff_left hno]

/-- A fault of two presets, one of whose provisions the other has too. -/
theorem faults_charged_shared : ∃ s',
    recordSessionFault id
      { timestamp := 0
        provisioning := [(Channel.named "inform", [1, 2, 3]), (.named "bootstrap", [2, 4])].foldl
          (fun r call => r.addProvisions id call.1 call.2) Provisioning.clearProvisions }
      { code := "timeout", message := "" } = some s'
    ∧ ∀ c t, t ∈ (provisionsOf s'.faults c).map id
      ↔ t ∈ (@provisionsOf ℕ InsMap.empty c).map id
        ∨ AddedUnder id (additions (actions
          [(.named "inform", [1, 2, 3]), (.named "bootstrap", [2, 4])])) c t :=
  (faults_charged id [(.named "inform", [1, 2, 3]), (.named "bootstrap", [2, 4])]).2
    (List.cons_ne_nil _ _) (Provisioning.fitting_of_few (by decide)) _ _ rfl

/-- 32 provisions of one channel and one of another: the shift count 32 is 0,
and the first provision is charged to the other channel. -/
def crowded : List (Channel × List ℕ) :=
  [(.named "inform", List.range 32), (.named "bootstrap", [32])]

theorem crowded_mischarged :
    ((after id (actions crowded)).provisions[0]? = some 0
      ∧ ((after id (actions crowded)).mask (.named "bootstrap")).getLsbD 0 = true
      ∧ ¬ AddedUnder id (additions (actions crowded)) (.named "bootstrap") 0)
    ∧ ((recordSessionFault id
        { timestamp := 0, provisioning := after id (actions crowded) }
        { code := "timeout", message := "" }).map fun s' =>
          (provisionsOf s'.faults (.named "bootstrap"))) = some [0, 32] := by
  decide +kernel

end

end SessionContext

end GenieAcs
