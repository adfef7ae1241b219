import GenieAcs.Lib.InsMap
import GenieAcs.Lib.Mask

/-!
# Provisions and the channels they were added under

A session has one list of provisions for all channels. Which of them were
added under a channel is kept in an integer for each channel, bit `i` for the
provision at index `i`; a provision that is added again is taken out, the bits
behind it move down, and it is appended with the channels it had and the new
one. A fault of the session is charged to every channel, with the provisions
its integer has.

Two provisions are the same if they have the same JSON text.
-/

namespace GenieAcs

/-- The channel of a task, `task_<id>`, or a channel a preset names. -/
inductive Channel where
  | task (id : String)
  | named (name : String)
  deriving DecidableEq, Repr

/-- The provisions of a session and the integers of its channels. -/
structure Provisioning (P : Type) where
  provisions : List P := []
  channels : InsMap Channel Mask := InsMap.empty

namespace Provisioning

variable {P K : Type}

def clearProvisions : Provisioning P := {}

/-- The integer of a channel; a missing one counts as 0. -/
def mask (s : Provisioning P) (c : Channel) : Mask := (s.channels.get? c).getD 0

/-- `channels[c] |= m`. -/
def mark (s : Provisioning P) (c : Channel) (m : Mask) : Provisioning P :=
  { s with channels := s.channels.set c (s.mask c ||| m) }

/-- Provision `j` goes, and the bits behind it move down. -/
def remove (s : Provisioning P) (j : Nat) : Provisioning P where
  provisions := s.provisions.eraseIdx j
  channels := s.channels.filterMap fun _ m => some (m.drop j)

/-- The channels that have bit `j`. -/
def havingBit (s : Provisioning P) (j : Nat) : List Channel :=
  s.channels.keys.filter fun c => (s.mask c).has j

variable [DecidableEq K] (json : P → K)

/-- The loop over the provisions from index `j` on, which looks at the list as
it is by then; the second component are the channels found. -/
def removeSame (text : K) : Nat → Nat → Provisioning P × List Channel →
    Provisioning P × List Channel
  | 0, _, r => r
  | steps + 1, j, (s, channels) =>
      match s.provisions[j]? with
      | none => (s, channels)
      | some p =>
          if json p = text then
            removeSame text steps (j + 1) (s.remove j, channels ++ s.havingBit j)
          else removeSame text steps (j + 1) (s, channels)

def addProvision (channel : Channel) (s : Provisioning P) (provision : P) : Provisioning P :=
  let (s, channels) := removeSame json (json provision) s.provisions.length 0 (s, [channel])
  let s := channels.foldl (fun s c => s.mark c (Mask.bit s.provisions.length)) s
  { s with provisions := s.provisions ++ [provision] }

def addProvisions (s : Provisioning P) (channel : Channel) (provisions : List P) :
    Provisioning P :=
  provisions.foldl (addProvision json channel) (s.mark channel 0)

/-- The channels have room for one more addition. Beyond 31 provisions only one
that is there already may be added, and the bit that the shift leaves behind
must be one that the addition sets anyway. -/
def Fits (s : Provisioning P) (channel : Channel) (provision : P) : Prop :=
  s.provisions.length ≤ 31 ∨
    s.provisions.length = 32 ∧ ∃ k q, s.provisions[k]? = some q ∧ json q = json provision ∧
      ∀ c, c ≠ channel → (s.mask c).has (if k = 31 then 0 else 31) = true →
        (s.mask c).has k = true

end Provisioning

/-! ## What was added -/

section

variable {P K : Type} {json : P → K}

/-- Some addition was one of a provision with this text under the channel. -/
def AddedUnder (json : P → K) (additions : List (Channel × P)) (c : Channel) (k : K) : Prop :=
  ∃ a ∈ additions, a.1 = c ∧ json a.2 = k

instance [DecidableEq K] (additions : List (Channel × P)) (c : Channel) (k : K) :
    Decidable (AddedUnder json additions c k) :=
  inferInstanceAs (Decidable (∃ a ∈ additions, a.1 = c ∧ json a.2 = k))

theorem addedUnder_append (additions : List (Channel × P)) (channel : Channel) (p : P)
    (c : Channel) (k : K) :
    AddedUnder json (additions ++ [(channel, p)]) c k
      ↔ AddedUnder json additions c k ∨ channel = c ∧ json p = k := by
  simp [AddedUnder, or_and_right, exists_or]

/-- The list has every provision that was added, once. -/
structure Listed (json : P → K) (s : Provisioning P) (additions : List (Channel × P)) : Prop where
  nodup : (s.provisions.map json).Nodup
  texts : ∀ k, k ∈ s.provisions.map json ↔ k ∈ additions.map fun a => json a.2
  keys : ∀ a ∈ additions, a.1 ∈ s.channels.keys

/-- The bits of the channels say what was added under them. -/
def Charged (json : P → K) (s : Provisioning P) (additions : List (Channel × P)) : Prop :=
  ∀ i c, (s.mask c).getLsbD i = true
    ↔ ∃ p, s.provisions[i]? = some p ∧ AddedUnder json additions c (json p)

end

namespace Provisioning

section

variable {P K : Type} {json : P → K} {s : Provisioning P} {c : Channel} {j i : Nat}

theorem mark_provisions (m : Mask) : (s.mark c m).provisions = s.provisions := rfl

theorem mask_mark (c c' : Channel) (m : Mask) :
    (s.mark c m).mask c' = if c' = c then s.mask c ||| m else s.mask c' := by
  rw [mask, mark, InsMap.get?_set]
  split_ifs with h
  · rfl
  · rfl

theorem mem_keys_mark (c c' : Channel) (m : Mask) :
    c' ∈ (s.mark c m).channels.keys ↔ c' = c ∨ c' ∈ s.channels.keys := by
  rw [InsMap.mem_keys, InsMap.mem_keys, mark]
  simp only [InsMap.get?_set]
  split_ifs with h
  · simp [h]
  · simp [h]

/-! ### Marking a list of channels -/

theorem markAll_provisions (m : Provisioning P → Mask) (cs : List Channel) :
    ∀ s : Provisioning P,
      (cs.foldl (fun s c => s.mark c (m s)) s).provisions = s.provisions := by
  induction cs with
  | nil => exact fun _ => rfl
  | cons d cs ih => exact fun s => ih (s.mark d (m s))

theorem mem_keys_markAll (m : Provisioning P → Mask) (cs : List Channel) :
    ∀ s : Provisioning P, c ∈ (cs.foldl (fun s c => s.mark c (m s)) s).channels.keys
      ↔ c ∈ cs ∨ c ∈ s.channels.keys := by
  induction cs with
  | nil => simp
  | cons d cs ih =>
      intro s
      rw [List.foldl_cons, ih, mem_keys_mark, List.mem_cons]
      tauto

theorem getLsbD_markAll {n : Nat} (hn : n < 32) (cs : List Channel) :
    ∀ s : Provisioning P, s.provisions.length = n →
      ((cs.foldl (fun s c => s.mark c (Mask.bit s.provisions.length)) s).mask c).getLsbD i
        = ((s.mask c).getLsbD i || decide (c ∈ cs ∧ i = n)) := by
  induction cs with
  | nil =>
      intro s _
      simp
  | cons d cs ih =>
      intro s hs
      rw [List.foldl_cons, ih (s.mark d (Mask.bit s.provisions.length)) hs, mask_mark, hs]
      by_cases hcd : c = d
      · rw [if_pos hcd, Mask.getLsbD_or_bit hn, hcd]
        by_cases hin : i = n <;> simp [hin]
      · simp [hcd]

/-! ### The repeated provision -/

theorem mask_remove : (s.remove j).mask c = (s.mask c).drop j := by
  rw [mask, remove, mask, InsMap.get?_filterMap]
  cases s.channels.get? c with
  | some m => rfl
  | none => exact Mask.drop_zero.symm

theorem mem_keys_remove : c ∈ (s.remove j).channels.keys ↔ c ∈ s.channels.keys := by
  rw [InsMap.mem_keys, InsMap.mem_keys, remove]
  simp only [InsMap.get?_filterMap]
  cases s.channels.get? c with
  | none => simp
  | some m => simp

theorem mem_havingBit (hj : j < 32) : c ∈ s.havingBit j ↔ (s.mask c).getLsbD j = true := by
  rw [havingBit, List.mem_filter, Mask.has_eq hj]
  constructor
  · exact fun h => h.2
  · intro h
    refine ⟨?_, h⟩
    by_contra hno
    rw [mask, InsMap.get?_eq_none.mpr hno] at h
    simp at h

/-- Provisions with one text are at one position. -/
theorem index_unique (hnodup : (s.provisions.map json).Nodup) {k k' : Nat} {q q' : P}
    (hk : s.provisions[k]? = some q) (hk' : s.provisions[k']? = some q')
    (hqq : json q = json q') : k = k' := by
  have hget : (s.provisions.map json)[k]? = some (json q) := by
    rw [List.getElem?_map, hk]
    rfl
  have hget' : (s.provisions.map json)[k']? = some (json q) := by
    rw [List.getElem?_map, hk', hqq]
    rfl
  obtain ⟨hlt, _⟩ := List.getElem?_eq_some_iff.mp hget
  exact (List.getElem?_inj hlt hnodup).mp (hget.trans hget'.symm)

/-- A list longer than 32 has a provision that no channel has a bit for. -/
theorem Charged.length_le {additions : List (Channel × P)} (hl : Listed json s additions)
    (h : Charged json s additions) : s.provisions.length ≤ 32 := by
  by_contra hlt
  obtain ⟨p, hp⟩ : ∃ p, s.provisions[32]? = some p :=
    ⟨_, List.getElem?_eq_getElem (by omega)⟩
  obtain ⟨a, ha, hap⟩ := List.mem_map.mp
    ((hl.texts (json p)).mp (List.mem_map_of_mem (List.mem_of_getElem? hp)))
  have hbit := (h 32 a.1).mpr ⟨p, hp, a, ha, rfl, hap⟩
  rw [BitVec.getLsbD_of_ge _ _ (Nat.le_refl _)] at hbit
  cases hbit

theorem Charged.beyond {additions : List (Channel × P)} (h : Charged json s additions)
    (hi : s.provisions.length ≤ i) : (s.mask c).getLsbD i = false := by
  by_contra hbit
  obtain ⟨q, hq, _⟩ := (h i c).mp (by simpa using hbit)
  rw [List.getElem?_eq_none hi] at hq
  cases hq

variable [DecidableEq K]

theorem removeSame_none {text : K} (steps : Nat) :
    ∀ (j : Nat) (cs : List Channel), (∀ i p, j ≤ i → s.provisions[i]? = some p → json p ≠ text) →
      removeSame json text steps j (s, cs) = (s, cs) := by
  induction steps with
  | zero => exact fun _ _ _ => rfl
  | succ steps ih =>
      intro j cs h
      unfold removeSame
      cases hp : s.provisions[j]? with
      | none => rfl
      | some p =>
          dsimp only
          rw [if_neg (h j p (Nat.le_refl j) hp)]
          exact ih (j + 1) cs fun i p hi => h i p (by omega)

/-- The one provision with the text is taken out. -/
theorem removeSame_some {text : K} (hnodup : (s.provisions.map json).Nodup) {k : Nat} {p : P}
    (hk : s.provisions[k]? = some p) (hp : json p = text) (steps : Nat) :
    ∀ (j : Nat) (cs : List Channel), j ≤ k → k < j + steps →
      removeSame json text steps j (s, cs) = (s.remove k, cs ++ s.havingBit k) := by
  have hunique : ∀ i q, s.provisions[i]? = some q → json q = text → i = k :=
    fun i q hi hq => index_unique hnodup hi hk (hq.trans hp.symm)
  induction steps with
  | zero =>
      intro j cs hjk hlt
      omega
  | succ steps ih =>
      intro j cs hjk hlt
      unfold removeSame
      rcases Nat.eq_or_lt_of_le hjk with rfl | hjk
      · rw [hk]
        dsimp only
        rw [if_pos hp]
        apply removeSame_none
        intro i q hi hq hqt
        have hshift : s.provisions[i + 1]? = some q := by
          rw [remove, List.getElem?_eraseIdx_of_ge (by omega)] at hq
          exact hq
        have := hunique _ q hshift hqt
        omega
      · obtain ⟨q, hq⟩ : ∃ q, s.provisions[j]? = some q := by
          have hlen := (List.getElem?_eq_some_iff.mp hk).1
          exact ⟨_, List.getElem?_eq_getElem (by omega)⟩
        rw [hq]
        dsimp only
        rw [if_neg fun h => by have := hunique j q hq h; omega]
        exact ih (j + 1) cs hjk (by omega)

/-- `addProvision` after the repeated provision is gone. -/
theorem addProvision_eq {channel : Channel} {p : P} {s' : Provisioning P} {cs : List Channel}
    (h : removeSame json (json p) s.provisions.length 0 (s, [channel]) = (s', cs)) :
    addProvision json channel s p =
      { cs.foldl (fun s c => s.mark c (Mask.bit s.provisions.length)) s' with
        provisions := (cs.foldl (fun s c => s.mark c (Mask.bit s.provisions.length)) s').provisions
          ++ [p] } := by
  rw [addProvision, h]


/-- What the list is after an addition, whatever the bits are. -/
theorem addProvision_provisions {channel : Channel} {p : P} {s' : Provisioning P}
    {cs : List Channel}
    (h : removeSame json (json p) s.provisions.length 0 (s, [channel]) = (s', cs)) :
    (addProvision json channel s p).provisions = s'.provisions ++ [p] := by
  rw [addProvision_eq h]
  exact congrArg (· ++ [p]) (markAll_provisions _ cs s')

theorem mem_keys_addProvision {channel : Channel} {p : P} {s' : Provisioning P}
    {cs : List Channel}
    (h : removeSame json (json p) s.provisions.length 0 (s, [channel]) = (s', cs)) :
    c ∈ (addProvision json channel s p).channels.keys ↔ c ∈ cs ∨ c ∈ s'.channels.keys := by
  rw [addProvision_eq h]
  exact mem_keys_markAll _ cs s'

/-- The bits after an addition that finds `s'.provisions.length` free. -/
theorem getLsbD_addProvision {channel : Channel} {p : P} {s' : Provisioning P}
    {cs : List Channel} (hroom : s'.provisions.length < 32)
    (h : removeSame json (json p) s.provisions.length 0 (s, [channel]) = (s', cs)) :
    ((addProvision json channel s p).mask c).getLsbD i
      = ((s'.mask c).getLsbD i || decide (c ∈ cs ∧ i = s'.provisions.length)) := by
  rw [addProvision_eq h]
  exact getLsbD_markAll hroom cs s' rfl

/-- The provision with the text of `p` is taken out, if there is one. -/
theorem removeSame_cases (hnodup : (s.provisions.map json).Nodup) (channel : Channel) (p : P) :
    (json p ∉ s.provisions.map json
      ∧ removeSame json (json p) s.provisions.length 0 (s, [channel]) = (s, [channel]))
    ∨ ∃ k q, s.provisions[k]? = some q ∧ json q = json p
      ∧ removeSame json (json p) s.provisions.length 0 (s, [channel])
        = (s.remove k, channel :: s.havingBit k) := by
  by_cases hmem : json p ∈ s.provisions.map json
  · obtain ⟨q, hq, hqp⟩ := List.mem_map.mp hmem
    obtain ⟨k, hk⟩ := List.mem_iff_getElem?.mp hq
    have hlt : k < s.provisions.length := (List.getElem?_eq_some_iff.mp hk).1
    right
    exact ⟨k, q, hk, hqp, removeSame_some hnodup hk hqp _ 0 _ (Nat.zero_le k) (by omega)⟩
  · left
    refine ⟨hmem, removeSame_none _ 0 _ ?_⟩
    intro i q _ hq heq
    exact hmem (heq ▸ List.mem_map_of_mem (List.mem_of_getElem? hq))

/-- The texts that are left when provision `k` goes. -/
theorem mem_map_remove (hnodup : (s.provisions.map json).Nodup) {k : Nat} {q : P}
    (hk : s.provisions[k]? = some q) (t : K) :
    t ∈ (s.remove k).provisions.map json ↔ t ≠ json q ∧ t ∈ s.provisions.map json := by
  have hget : (s.provisions.map json)[k]? = some (json q) := by
    rw [List.getElem?_map, hk]
    rfl
  obtain ⟨hlt, hget⟩ := List.getElem?_eq_some_iff.mp hget
  rw [remove, ← List.eraseIdx_map, ← hnodup.erase_getElem _ hlt, hget, hnodup.mem_erase_iff]

theorem listed_addProvision {additions : List (Channel × P)} (h : Listed json s additions)
    (channel : Channel) (p : P) :
    Listed json (addProvision json channel s p) (additions ++ [(channel, p)]) := by
  obtain ⟨s', cs, hs, hnodup, hnew, htexts, hkeys⟩ : ∃ s' cs,
      removeSame json (json p) s.provisions.length 0 (s, [channel]) = (s', cs)
      ∧ (s'.provisions.map json).Nodup ∧ json p ∉ s'.provisions.map json
      ∧ (∀ t, t ≠ json p → (t ∈ s'.provisions.map json ↔ t ∈ s.provisions.map json))
      ∧ ∀ c, c = channel ∨ c ∈ s.channels.keys → c ∈ cs ∨ c ∈ s'.channels.keys := by
    rcases removeSame_cases h.nodup channel p with ⟨hmem, hs⟩ | ⟨k, q, hk, hqp, hs⟩
    · exact ⟨s, _, hs, h.nodup, hmem, fun _ _ => Iff.rfl, by simp⟩
    · refine ⟨_, _, hs, ?_, ?_, ?_, ?_⟩
      · rw [remove, ← List.eraseIdx_map]
        exact h.nodup.sublist (List.eraseIdx_sublist ..)
      · rw [mem_map_remove h.nodup hk, hqp]
        exact fun hp => hp.1 rfl
      · intro t ht
        rw [mem_map_remove h.nodup hk, hqp]
        simp [ht]
      · rintro c (rfl | hc)
        · exact Or.inl (List.mem_cons_self ..)
        · exact Or.inr (mem_keys_remove.mpr hc)
  constructor
  · rw [addProvision_provisions hs, List.map_append, List.nodup_append]
    refine ⟨hnodup, List.nodup_singleton _, ?_⟩
    rintro t ht _ ht' rfl
    rw [List.map_singleton, List.mem_singleton] at ht'
    exact hnew (ht' ▸ ht)
  · intro t
    rw [addProvision_provisions hs]
    by_cases ht : t = json p
    · simp [ht]
    · have := (htexts t ht).trans (h.texts t)
      simp only [List.mem_map] at this
      simp [ht, this]
  · intro a ha
    rw [mem_keys_addProvision hs]
    apply hkeys
    rcases List.mem_append.mp ha with ha | ha
    · exact Or.inr (h.keys a ha)
    · rw [List.mem_singleton.mp ha]
      exact Or.inl rfl

/-! ### One addition -/

/-- The bits of the provisions that were in the list stay right; the bits at
the new position are right if no stale bit is left there. -/
theorem charged_push {additions : List (Channel × P)} {channel : Channel} {p : P}
    {s' : Provisioning P} {cs : List Channel} (hroom : s'.provisions.length < 32)
    (hs : removeSame json (json p) s.provisions.length 0 (s, [channel]) = (s', cs))
    (hnew : json p ∉ s'.provisions.map json)
    (hbits : ∀ i c, i < s'.provisions.length → ((s'.mask c).getLsbD i = true
      ↔ ∃ q, s'.provisions[i]? = some q ∧ AddedUnder json additions c (json q)))
    (hbeyond : ∀ i c, s'.provisions.length < i → (s'.mask c).getLsbD i = false)
    (hcs : ∀ c, c ∈ cs ↔ channel = c ∨ AddedUnder json additions c (json p)) :
    Charged json (addProvision json channel s p) (additions ++ [(channel, p)])
      ↔ ∀ c, (s'.mask c).getLsbD s'.provisions.length = true → c ∈ cs := by
  have hlast : ∀ c, (∃ q, (s'.provisions ++ [p])[s'.provisions.length]? = some q
      ∧ AddedUnder json (additions ++ [(channel, p)]) c (json q)) ↔ c ∈ cs := by
    intro c
    rw [List.getElem?_append_right (Nat.le_refl _), Nat.sub_self, hcs]
    simp [addedUnder_append, or_comm]
  constructor
  · intro h c hc
    have hbit := h s'.provisions.length c
    rw [getLsbD_addProvision hroom hs, hc, addProvision_provisions hs, hlast] at hbit
    exact hbit.mp rfl
  · intro h i c
    rw [getLsbD_addProvision hroom hs, addProvision_provisions hs, Bool.or_eq_true,
      decide_eq_true_iff]
    rcases Nat.lt_trichotomy i s'.provisions.length with hi | rfl | hi
    · have hold : ∀ q, s'.provisions[i]? = some q →
          (AddedUnder json (additions ++ [(channel, p)]) c (json q)
            ↔ AddedUnder json additions c (json q)) := by
        intro q hq
        rw [addedUnder_append]
        have hne : json p ≠ json q := by
          intro heq
          exact hnew (heq ▸ List.mem_map_of_mem (List.mem_of_getElem? hq))
        simp [hne]
      have hne : i ≠ s'.provisions.length := hi.ne
      rw [List.getElem?_append_left hi, hbits i c hi]
      simp only [hne, and_false, or_false]
      exact exists_congr fun q => and_congr_right fun hq => (hold q hq).symm
    · rw [hlast]
      simp only [and_true]
      exact ⟨fun hc => hc.elim (h c) id, Or.inr⟩
    · have hnone : (s'.provisions ++ [p])[i]? = none :=
        List.getElem?_eq_none (by rw [List.length_append, List.length_singleton]; omega)
      rw [hbeyond i c hi, hnone]
      have hne : i ≠ s'.provisions.length := by omega
      simp [hne]

/-- A provision that is not in the list fits while there is a position for it. -/
theorem charged_addProvision_new {additions : List (Channel × P)}
    (hl : Listed json s additions) (h : Charged json s additions) {channel : Channel} {p : P}
    (hmem : json p ∉ s.provisions.map json)
    (hs : removeSame json (json p) s.provisions.length 0 (s, [channel]) = (s, [channel])) :
    Charged json (addProvision json channel s p) (additions ++ [(channel, p)])
      ↔ Fits json s channel p := by
  constructor
  · intro hc
    have hle := Charged.length_le (listed_addProvision hl channel p) hc
    rw [addProvision_provisions hs, List.length_append, List.length_singleton] at hle
    exact Or.inl (by omega)
  · rintro (hroom | ⟨_, k, q, hk, hqp, _⟩)
    · have hno : ∀ c, ¬ AddedUnder json additions c (json p) := by
        rintro c ⟨a, ha, _, heq⟩
        exact hmem ((hl.texts _).mpr (heq ▸ List.mem_map_of_mem ha))
      rw [charged_push (by omega) hs hmem (fun i c _ => h i c)
        (fun i c hi => Charged.beyond h (by omega))]
      · intro c hc
        rw [Charged.beyond h (Nat.le_refl _)] at hc
        cases hc
      · intro c
        simp [hno, eq_comm]
    · exact absurd (hqp ▸ List.mem_map_of_mem (List.mem_of_getElem? hk)) hmem

/-- A provision that is in the list at `k` fits if the bit left behind is one
of those that the addition sets. -/
theorem charged_addProvision_again {additions : List (Channel × P)}
    (hl : Listed json s additions) (h : Charged json s additions) {channel : Channel} {p q : P}
    {k : Nat} (hk : s.provisions[k]? = some q) (hqp : json q = json p)
    (hs : removeSame json (json p) s.provisions.length 0 (s, [channel])
      = (s.remove k, channel :: s.havingBit k)) :
    Charged json (addProvision json channel s p) (additions ++ [(channel, p)])
      ↔ Fits json s channel p := by
  have hlen := Charged.length_le hl h
  have hlt : k < s.provisions.length := (List.getElem?_eq_some_iff.mp hk).1
  have hlen' : (s.remove k).provisions.length + 1 = s.provisions.length := by
    rw [remove, List.length_eraseIdx_of_lt hlt]
    omega
  have hdrop : ∀ i c, ((s.remove k).mask c).getLsbD i
      = if i < k then (s.mask c).getLsbD i
        else if i < 31 then (s.mask c).getLsbD (i + 1)
        else decide (i = 31) && (s.mask c).getLsbD (if k = 31 then 0 else 31) := by
    intro i c
    rw [mask_remove, Mask.getLsbD_drop (by omega)]
  rw [charged_push (by omega) hs]
  · rcases Nat.lt_or_ge (s.remove k).provisions.length 31 with hroom | hroom
    · -- fewer than 32 provisions: the sign bits are clear
      have hfits : Fits json s channel p := Or.inl (by omega)
      have hclear : ∀ c,
          ((s.remove k).mask c).getLsbD (s.remove k).provisions.length = false := by
        intro c
        rw [hdrop, if_neg (by omega), if_pos hroom]
        exact Charged.beyond h hlen'.ge
      simp [hfits, hclear]
    · have hfull : (s.remove k).provisions.length = 31 := by omega
      have hstale : ∀ c, ((s.remove k).mask c).getLsbD 31
          = (s.mask c).has (if k = 31 then 0 else 31) := by
        intro c
        rw [hdrop, if_neg (by omega), if_neg (by omega), Mask.has_eq (by split_ifs <;> omega)]
        simp
      have hmem : ∀ c, c ∈ channel :: s.havingBit k ↔ c = channel ∨ (s.mask c).has k = true := by
        intro c
        rw [List.mem_cons, mem_havingBit (by omega), Mask.has_eq (by omega)]
      rw [hfull]
      simp only [hstale, hmem]
      constructor
      · intro hc
        right
        exact ⟨by omega, k, q, hk, hqp, fun c hne hbit => (hc c hbit).resolve_left hne⟩
      · rintro (hroom' | ⟨_, k', q', hk', hqp', hc⟩)
        · omega
        · obtain rfl := index_unique hl.nodup hk' hk (hqp'.trans hqp.symm)
          intro c hbit
          by_cases hne : c = channel
          · exact Or.inl hne
          · exact Or.inr (hc c hne hbit)
  · rw [mem_map_remove hl.nodup hk, hqp]
    exact fun hp => hp.1 rfl
  · intro i c hi
    rw [hdrop]
    by_cases hik : i < k
    · rw [if_pos hik, h i c, remove, List.getElem?_eraseIdx_of_lt hik]
    · rw [if_neg hik, if_pos (by omega), h (i + 1) c, remove,
        List.getElem?_eraseIdx_of_ge (by omega)]
  · intro i c hi
    rw [hdrop, if_neg (by omega)]
    by_cases h31 : i < 31
    · have hge : s.provisions.length ≤ i + 1 := by omega
      rw [if_pos h31]
      exact Charged.beyond h hge
    · rw [if_neg h31]
      by_cases hlast : i = 31
      · have hk31 : k ≠ 31 := by omega
        rw [if_neg hk31, Charged.beyond h (by omega), Bool.and_false]
      · simp [hlast]
  · intro c
    rw [List.mem_cons, mem_havingBit (by omega), h k c]
    simp [hk, hqp, eq_comm]

/-- The step lemma: an addition keeps the bits right if and only if it fits. -/
theorem charged_addProvision {additions : List (Channel × P)} (hl : Listed json s additions)
    (h : Charged json s additions) (channel : Channel) (p : P) :
    Charged json (addProvision json channel s p) (additions ++ [(channel, p)])
      ↔ Fits json s channel p := by
  rcases removeSame_cases hl.nodup channel p with ⟨hmem, hs⟩ | ⟨k, q, hk, hqp, hs⟩
  · exact charged_addProvision_new hl h hmem hs
  · exact charged_addProvision_again hl h hk hqp hs

end

/-! ## Runs -/

/-- One thing that a call of `addProvisions` does. -/
inductive Action (P : Type) where
  | enter (channel : Channel)
  | add (channel : Channel) (provision : P)

section

variable {P K : Type} [DecidableEq K]

def act (json : P → K) (s : Provisioning P) : Action P → Provisioning P
  | .enter c => s.mark c 0
  | .add c p => addProvision json c s p

/-- The provisions after these actions since the last `clearProvisions`. -/
def after (json : P → K) (actions : List (Action P)) : Provisioning P :=
  actions.foldl (act json) clearProvisions

/-- What the calls of `addProvisions` do, one thing after the other. -/
def actions (calls : List (Channel × List P)) : List (Action P) :=
  calls.flatMap fun call => .enter call.1 :: call.2.map (.add call.1)

def additions (actions : List (Action P)) : List (Channel × P) :=
  actions.filterMap fun
    | .enter _ => none
    | .add c p => some (c, p)

/-- Every addition fits into the provisions before it. -/
def Fitting (json : P → K) (actions : List (Action P)) : Prop :=
  ∀ before c p, before ++ [.add c p] <+: actions → Fits json (after json before) c p

variable {json : P → K}

theorem after_actions (calls : List (Channel × List P)) :
    calls.foldl (fun s call => addProvisions json s call.1 call.2) clearProvisions
      = after json (actions calls) := by
  have h : ∀ s : Provisioning P,
      calls.foldl (fun s call => addProvisions json s call.1 call.2) s
        = (actions calls).foldl (act json) s := by
    induction calls with
    | nil => exact fun _ => rfl
    | cons call calls ih =>
        intro s
        have hcall : addProvisions json s call.1 call.2
            = (Action.enter call.1 :: call.2.map (.add call.1)).foldl (act json) s := by
          rw [List.foldl_cons, List.foldl_map]
          rfl
        rw [List.foldl_cons, ih, hcall, ← List.foldl_append]
        rfl
  exact h clearProvisions

theorem after_concat (before : List (Action P)) (a : Action P) :
    after json (before ++ [a]) = act json (after json before) a := by
  rw [after, List.foldl_append]
  rfl

theorem additions_concat_add (before : List (Action P)) (c : Channel) (p : P) :
    additions (before ++ [.add c p]) = additions before ++ [(c, p)] := by
  rw [additions, List.filterMap_append]
  rfl

theorem additions_concat_enter (before : List (Action P)) (c : Channel) :
    additions (before ++ [.enter c]) = additions before := by
  rw [additions, List.filterMap_append]
  exact List.append_nil _

theorem listed_after (actions : List (Action P)) :
    Listed json (after json actions) (additions actions) := by
  induction actions using List.reverseRecOn with
  | nil =>
      constructor
      · exact List.nodup_nil
      · exact fun _ => Iff.rfl
      · exact fun _ h => by cases h
  | append_singleton before a ih =>
      rw [after_concat]
      cases a with
      | enter c =>
          rw [additions_concat_enter]
          exact ⟨ih.nodup, ih.texts, fun a ha => (mem_keys_mark c a.1 0).mpr (Or.inr (ih.keys a ha))⟩
      | add c p =>
          rw [additions_concat_add]
          exact listed_addProvision ih c p

omit [DecidableEq K] in
theorem charged_enter {s : Provisioning P} {additions : List (Channel × P)} (c : Channel) :
    Charged json (s.mark c 0) additions ↔ Charged json s additions := by
  have hmask : ∀ c', (s.mark c 0).mask c' = s.mask c' := by
    intro c'
    rw [mask_mark]
    split_ifs with h
    · rw [h]
      exact BitVec.or_zero
    · rfl
  rw [Charged, Charged, mark_provisions]
  simp only [hmask]

theorem fitting_concat (before : List (Action P)) (a : Action P) :
    Fitting json (before ++ [a]) ↔ Fitting json before
      ∧ ∀ c p, a = .add c p → Fits json (after json before) c p := by
  constructor
  · intro h
    constructor
    · exact fun before' c p hp => h before' c p (hp.trans (List.prefix_append _ _))
    · rintro c p rfl
      exact h before c p (List.prefix_refl _)
  · rintro ⟨hbefore, hlast⟩ before' c p hp
    rcases List.prefix_concat_iff.mp hp with heq | hp
    · obtain ⟨rfl, ha⟩ := List.append_inj' heq rfl
      exact hlast c p (List.cons.inj ha).1.symm
    · exact hbefore before' c p hp

/-- The run lemma: the bits are right all along the run if and only if every
addition fits. -/
theorem charged_after (actions : List (Action P)) :
    (∀ before, before <+: actions → Charged json (after json before) (additions before))
      ↔ Fitting json actions := by
  induction actions using List.reverseRecOn with
  | nil =>
      constructor
      · intro _ before c p hp
        exact absurd (List.prefix_nil.mp hp) (by simp)
      · intro _ before hp
        obtain rfl := List.prefix_nil.mp hp
        intro i c
        simp [after, clearProvisions, mask, additions, AddedUnder]
  | append_singleton actions a ih =>
      have hstep : Charged json (after json actions) (additions actions) →
          (Charged json (after json (actions ++ [a])) (additions (actions ++ [a]))
            ↔ ∀ c p, a = .add c p → Fits json (after json actions) c p) := by
        intro h
        rw [after_concat]
        cases a with
        | enter c =>
            rw [additions_concat_enter]
            refine iff_of_true ((charged_enter c).mpr h) ?_
            intro c p ha
            cases ha
        | add c p =>
            rw [additions_concat_add]
            refine (charged_addProvision (listed_after actions) h c p).trans ?_
            constructor
            · rintro hfits c p ⟨⟩
              exact hfits
            · exact fun hfits => hfits c p rfl
      rw [fitting_concat, ← ih]
      constructor
      · intro h
        have hbefore := fun before (hp : before <+: actions) =>
          h before (hp.trans (List.prefix_append actions [a]))
        exact ⟨hbefore, (hstep (hbefore _ (List.prefix_refl _))).mp (h _ (List.prefix_refl _))⟩
      · rintro ⟨hbefore, hlast⟩ before hp
        rcases List.prefix_concat_iff.mp hp with rfl | hp
        · exact (hstep (hbefore _ (List.prefix_refl _))).mpr hlast
        · exact hbefore before hp

/-- Up to 32 additions fit, whatever is added. -/
theorem fitting_of_few {actions : List (Action P)} (h : (additions actions).length ≤ 32) :
    Fitting json actions := by
  rintro before c p ⟨rest, rfl⟩
  left
  have hl := @listed_after P K _ json before
  have hsub : (after json before).provisions.map json
      ⊆ (additions before).map fun a => json a.2 := fun t => (hl.texts t).mp
  have hle := (hl.nodup.subperm hsub).length_le
  rw [additions, List.filterMap_append, List.length_append, ← additions,
    additions_concat_add, List.length_append, List.length_singleton] at h
  rw [List.length_map, List.length_map] at hle
  omega

end

end Provisioning

end GenieAcs
