import Mathlib.Logic.Function.Basic
import Mathlib.Data.Set.Insert
import GenieAcs.Lib.Transition

/-!
# Custody of items between parties, a store and timers

Items with an identity are handed between parties and a shared store that
has one place for each identity. A party that puts an item into the store
leaves a timer behind, which carries the stamp the item had. When the timer
goes off it looks into the store and *claims* the item it finds under its
own stamp; the item stays in the store all the same.

Items are worked on by the party that holds them and are *finished* by that
party or by the timer that claimed them. `Inv.step` is the invariant behind
the two facts of interest: an item is finished at most once, and nobody works
on it afterwards (`Safe`). It rests on the two guards of `Step.move`: nobody
takes a claimed item out of the store, and a party does not stamp an item
with the stamp of one of its timers.
-/

namespace GenieAcs

namespace Custody

/-- Where an item can be. -/
inductive Place (R I : Type*)
  | party (r : R)
  | store (i : I)
  deriving DecidableEq

/-- An item; only a stamped one may be stored. -/
structure Item (I T : Type*) where
  id : I
  stamp : Option T

inductive Phase
  | waiting
  | claimed
  | finished
  deriving DecidableEq

structure Timer (I T : Type*) where
  id : I
  stamp : T
  phase : Phase

inductive Event (I : Type*)
  | worked (i : I)
  | finished (i : I)
  deriving DecidableEq

/-- The item an event is about. -/
def Event.id {I : Type*} : Event I → I
  | .worked i => i
  | .finished i => i

/-- Who holds what, the timers, and what happened, newest first. -/
structure State (R P I T : Type*) where
  held : Place R I → Option (Item I T)
  timer : P → Option (Timer I T)
  log : List (Event I)
  used : Set I

/-- No event about an item follows its finish. -/
def Safe {I : Type*} : List (Event I) → Prop
  | [] => True
  | e :: log => Event.finished e.id ∉ log ∧ Safe log

variable {R P I T : Type*}

/-- A timer that found its item in the store. -/
def Claims (s : State R P I T) (p : P) (t : Timer I T) : Prop :=
  s.timer p = some t ∧ t.phase ≠ .waiting

section Steps

variable [DecidableEq R] [DecidableEq P] [DecidableEq I]

/-- The custody steps. -/
inductive Step : State R P I T → State R P I T → Prop
  /-- An item is lost. -/
  | drop (s : State R P I T) (l : Place R I) :
      Step s { s with held := Function.update s.held l none }
  /-- A party takes an item over, from another party or out of the store. -/
  | move (s : State R P I T) (l : Place R I) (r : R) (x y : Item I T) (hx : s.held l = some x)
      (hid : y.id = x.id)
      (hstamp : ∀ τ, y.stamp = some τ → (∃ r', l = .party r') ∧
        (x.stamp = some τ ∨ ∀ p t, s.timer p = some t → t.id = x.id → t.stamp ≠ τ))
      (hclaim : l = .store x.id → ∀ p t, Claims s p t → t.id ≠ x.id) :
      Step s { s with
        held := Function.update (Function.update s.held l none) (.party r) (some y) }
  | create (s : State R P I T) (r : R) (i : I) (hi : i ∉ s.used) :
      Step s { s with
        held := Function.update s.held (.party r) (some ⟨i, none⟩)
        used := insert i s.used }
  | work (s : State R P I T) (r : R) (x : Item I T) (hx : s.held (.party r) = some x) :
      Step s { s with log := .worked x.id :: s.log }
  | finish (s : State R P I T) (r : R) (x : Item I T) (hx : s.held (.party r) = some x) :
      Step s { s with
        held := Function.update s.held (.party r) none
        log := .finished x.id :: s.log }
  | save (s : State R P I T) (r : R) (p : P) (i : I) (τ : T)
      (hx : s.held (.party r) = some ⟨i, some τ⟩) (hp : s.timer p = none) :
      Step s { s with
        held := Function.update (Function.update s.held (.party r) none) (.store i)
          (some ⟨i, some τ⟩)
        timer := Function.update s.timer p (some ⟨i, τ, .waiting⟩) }
  | claim (s : State R P I T) (p : P) (i : I) (τ : T)
      (hp : s.timer p = some ⟨i, τ, .waiting⟩)
      (hx : ∃ x, s.held (.store i) = some x ∧ x.stamp = some τ) :
      Step s { s with timer := Function.update s.timer p (some ⟨i, τ, .claimed⟩) }
  | lapse (s : State R P I T) (p : P) (i : I) (τ : T)
      (hp : s.timer p = some ⟨i, τ, .waiting⟩) :
      Step s { s with timer := Function.update s.timer p none }
  | expire (s : State R P I T) (p : P) (i : I) (τ : T)
      (hp : s.timer p = some ⟨i, τ, .claimed⟩) :
      Step s { s with
        timer := Function.update s.timer p (some ⟨i, τ, .finished⟩)
        log := .finished i :: s.log }

end Steps

/-! ## The invariant -/

structure Inv (s : State R P I T) : Prop where
  /-- An item is in one place only. -/
  one : ∀ l l' x x', s.held l = some x → s.held l' = some x' → x.id = x'.id → l = l'
  place : ∀ i x, s.held (.store i) = some x → x.id = i
  usedHeld : ∀ l x, s.held l = some x → x.id ∈ s.used
  usedTimer : ∀ p t, s.timer p = some t → t.id ∈ s.used
  usedLog : ∀ e ∈ s.log, e.id ∈ s.used
  /-- The timers of an item have different stamps. -/
  distinct : ∀ p p' t t', s.timer p = some t → s.timer p' = some t' → t.id = t'.id →
    t.stamp = t'.stamp → p = p'
  /-- An item in a party's hands is stamped unlike its timers. -/
  fresh : ∀ r x τ, s.held (.party r) = some x → x.stamp = some τ →
    ∀ p t, s.timer p = some t → t.id = x.id → t.stamp ≠ τ
  /-- A claimed item is where the timer found it. -/
  claimed : ∀ p t, Claims s p t → ∀ l x, s.held l = some x → x.id = t.id →
    l = .store t.id ∧ x.stamp = some t.stamp
  claimer : ∀ p p' t t', Claims s p t → Claims s p' t' → t.id = t'.id → p = p'
  /-- Only a timer finishes an item that is still somewhere. -/
  finished : ∀ l x, s.held l = some x → Event.finished x.id ∈ s.log →
    ∃ p t, s.timer p = some t ∧ t.phase = .finished ∧ t.id = x.id
  pending : ∀ p t, s.timer p = some t → t.phase = .claimed → Event.finished t.id ∉ s.log
  safe : Safe s.log

theorem Inv.init {s : State R P I T} (hheld : ∀ l, s.held l = none)
    (htimer : ∀ p, s.timer p = none) (hlog : s.log = []) : Inv s := by
  constructor <;> simp [Claims, Safe, hheld, htimer, hlog]

/-- An item in a party's hands is neither claimed nor finished. -/
theorem Inv.not_claims {s : State R P I T} (h : Inv s) {r : R} {x : Item I T}
    (hx : s.held (.party r) = some x) {p : P} {t : Timer I T} (ht : Claims s p t) :
    t.id ≠ x.id := by
  intro hid
  obtain ⟨hl, -⟩ := h.claimed p t ht (.party r) x hx hid.symm
  cases hl

theorem Inv.not_finished {s : State R P I T} (h : Inv s) {l : Place R I} {x : Item I T}
    (hx : s.held l = some x) (hno : ∀ p t, Claims s p t → t.id ≠ x.id) :
    Event.finished x.id ∉ s.log := by
  intro hf
  obtain ⟨p, t, ht, hphase, hid⟩ := h.finished l x hx hf
  exact hno p t ⟨ht, by rw [hphase]; exact fun h => by cases h⟩ hid

theorem Inv.party_not_finished {s : State R P I T} (h : Inv s) {r : R} {x : Item I T}
    (hx : s.held (.party r) = some x) : Event.finished x.id ∉ s.log :=
  h.not_finished hx fun _ _ ht => h.not_claims hx ht

/-! ## Each step keeps it -/

/-- Losing items keeps the invariant. -/
theorem Inv.shrink {s : State R P I T} (h : Inv s) {held : Place R I → Option (Item I T)}
    (hheld : ∀ l x, held l = some x → s.held l = some x) : Inv { s with held := held } where
  one l l' x x' hx hx' := h.one l l' x x' (hheld l x hx) (hheld l' x' hx')
  place i x hx := h.place i x (hheld _ x hx)
  usedHeld l x hx := h.usedHeld l x (hheld l x hx)
  usedTimer := h.usedTimer
  usedLog := h.usedLog
  distinct := h.distinct
  fresh r x τ hx := h.fresh r x τ (hheld _ x hx)
  claimed p t ht l x hx := h.claimed p t ht l x (hheld l x hx)
  claimer := h.claimer
  finished l x hx := h.finished l x (hheld l x hx)
  pending := h.pending
  safe := h.safe

/-- `held` has `y` at `l₁` and otherwise only other items of `s`, where `s` has
them. -/
def Placed (s : State R P I T) (held : Place R I → Option (Item I T)) (l₁ : Place R I)
    (y : Item I T) : Prop :=
  ∀ l x, held l = some x → l = l₁ ∧ x = y ∨ l ≠ l₁ ∧ s.held l = some x ∧ x.id ≠ y.id

/-- Placing an item that no timer claims and nobody finished. -/
theorem Inv.placed {s : State R P I T} (h : Inv s) {held : Place R I → Option (Item I T)}
    {l₁ : Place R I} {y : Item I T} {used : Set I} (hheld : Placed s held l₁ y)
    (hsub : s.used ⊆ used) (hused : y.id ∈ used) (hplace : ∀ i, l₁ = .store i → y.id = i)
    (hfresh : ∀ r τ, l₁ = .party r → y.stamp = some τ →
      ∀ p t, s.timer p = some t → t.id = y.id → t.stamp ≠ τ)
    (hclaim : ∀ p t, Claims s p t → t.id ≠ y.id) (hfin : Event.finished y.id ∉ s.log) :
    Inv { s with held := held, used := used } where
  one l l' x x' hx hx' hid := by
    rcases hheld l x hx with ⟨rfl, rfl⟩ | ⟨-, hx, hne⟩ <;>
      rcases hheld l' x' hx' with ⟨rfl, rfl⟩ | ⟨-, hx', hne'⟩
    · rfl
    · exact absurd hid.symm hne'
    · exact absurd hid hne
    · exact h.one l l' x x' hx hx' hid
  place i x hx := by
    rcases hheld _ x hx with ⟨hl, rfl⟩ | ⟨-, hx, -⟩
    · exact hplace i hl.symm
    · exact h.place i x hx
  usedHeld l x hx := by
    rcases hheld l x hx with ⟨-, rfl⟩ | ⟨-, hx, -⟩
    · exact hused
    · exact hsub (h.usedHeld l x hx)
  usedTimer p t ht := hsub (h.usedTimer p t ht)
  usedLog e he := hsub (h.usedLog e he)
  distinct := h.distinct
  fresh r x τ hx hτ := by
    rcases hheld _ x hx with ⟨hl, rfl⟩ | ⟨-, hx, -⟩
    · exact hfresh r τ hl.symm hτ
    · exact h.fresh r x τ hx hτ
  claimed p t ht l x hx hid := by
    rcases hheld l x hx with ⟨-, rfl⟩ | ⟨-, hx, -⟩
    · exact absurd hid.symm (hclaim p t ht)
    · exact h.claimed p t ht l x hx hid
  claimer := h.claimer
  finished l x hx hf := by
    rcases hheld l x hx with ⟨-, rfl⟩ | ⟨-, hx, -⟩
    · exact absurd hf hfin
    · exact h.finished l x hx hf
  pending := h.pending
  safe := h.safe

/-- A timer function that was changed at `p` only. -/
theorem reset_cases [DecidableEq P] {f g : P → Option (Timer I T)} {p : P} {v : Timer I T}
    (hg : ∀ q, g q = if q = p then some v else f q) (q : P) (t : Timer I T) (hq : g q = some t) :
    q = p ∧ t = v ∨ q ≠ p ∧ f q = some t := by
  rw [hg] at hq
  by_cases hqp : q = p
  · rw [if_pos hqp] at hq
    exact Or.inl ⟨hqp, (Option.some.inj hq).symm⟩
  · rw [if_neg hqp] at hq
    exact Or.inr ⟨hqp, hq⟩

theorem reset_of_ne [DecidableEq P] {f g : P → Option (Timer I T)} {p : P}
    {v : Option (Timer I T)} (hg : ∀ q, g q = if q = p then v else f q) {q : P} {t u : Timer I T}
    (hq : f q = some t) (hp : f p = some u) (hne : t ≠ u) : g q = some t := by
  rw [hg, if_neg]
  · exact hq
  · rintro rfl
    exact hne (Option.some.inj (hq.symm.trans hp))

/-- A new timer for an item that lies in the store under the timer's stamp. -/
theorem Inv.armed [DecidableEq P] {s : State R P I T} (h : Inv s) {timer : P → Option (Timer I T)} {p : P}
    {i : I} {τ : T} (hp : s.timer p = none)
    (htimer : ∀ q, timer q = if q = p then some ⟨i, τ, .waiting⟩ else s.timer q)
    (hx : ∃ x, s.held (.store i) = some x)
    (hnew : ∀ q t, s.timer q = some t → t.id = i → t.stamp ≠ τ) :
    Inv { s with timer := timer } := by
  obtain ⟨x, hx⟩ := hx
  have hxid := h.place i x hx
  have hcases := reset_cases htimer
  have hclaims : ∀ q t, Claims { s with timer := timer } q t → Claims s q t := by
    rintro q t ⟨hq, hphase⟩
    rcases hcases q t hq with ⟨-, rfl⟩ | ⟨-, hq⟩
    · exact absurd rfl hphase
    · exact ⟨hq, hphase⟩
  refine ⟨h.one, h.place, h.usedHeld, ?_, h.usedLog, ?_, ?_, ?_, ?_, ?_, ?_, h.safe⟩
  · intro q t hq
    rcases hcases q t hq with ⟨-, rfl⟩ | ⟨-, hq⟩
    · rw [← hxid]
      exact h.usedHeld _ x hx
    · exact h.usedTimer q t hq
  · intro q q' t t' hq hq' hid hst
    rcases hcases q t hq with ⟨rfl, rfl⟩ | ⟨-, hq⟩ <;>
      rcases hcases q' t' hq' with ⟨rfl, rfl⟩ | ⟨-, hq'⟩
    · rfl
    · exact absurd hst.symm (hnew q' t' hq' hid.symm)
    · exact absurd hst (hnew q t hq hid)
    · exact h.distinct q q' t t' hq hq' hid hst
  · intro r y τ' hy hτ' q t hq hid
    rcases hcases q t hq with ⟨-, rfl⟩ | ⟨-, hq⟩
    · cases h.one _ _ y x hy hx (hid.symm.trans hxid.symm)
    · exact h.fresh r y τ' hy hτ' q t hq hid
  · exact fun q t ht => h.claimed q t (hclaims q t ht)
  · exact fun q q' t t' ht ht' => h.claimer q q' t t' (hclaims q t ht) (hclaims q' t' ht')
  · intro l y hy hf
    obtain ⟨q, t, hq, hphase, hid⟩ := h.finished l y hy hf
    refine ⟨q, t, ?_, hphase, hid⟩
    show timer q = some t
    rw [htimer, if_neg]
    · exact hq
    · rintro rfl
      rw [hp] at hq
      cases hq
  · intro q t hq hphase
    rcases hcases q t hq with ⟨-, rfl⟩ | ⟨-, hq⟩
    · cases hphase
    · exact h.pending q t hq hphase

/-- The timer that claims the item it finds under its stamp. -/
theorem Inv.claim [DecidableEq P] {s : State R P I T} (h : Inv s) {timer : P → Option (Timer I T)}
    {p : P} {i : I} {τ : T} (hp : s.timer p = some ⟨i, τ, .waiting⟩)
    (htimer : ∀ q, timer q = if q = p then some ⟨i, τ, .claimed⟩ else s.timer q)
    (hx : ∃ x, s.held (.store i) = some x ∧ x.stamp = some τ) :
    Inv { s with timer := timer } := by
  obtain ⟨x, hx, hxτ⟩ := hx
  have hxid := h.place i x hx
  -- every timer has a counterpart that differs at most in its phase
  have hcases := reset_cases htimer
  have hback : ∀ q t, timer q = some t →
      ∃ t', s.timer q = some t' ∧ t'.id = t.id ∧ t'.stamp = t.stamp := by
    intro q t hq
    rcases hcases q t hq with ⟨rfl, rfl⟩ | ⟨-, hq⟩
    · exact ⟨_, hp, rfl, rfl⟩
    · exact ⟨t, hq, rfl, rfl⟩
  -- nobody claimed the item before: the claim would carry the same stamp
  have hnone : ∀ q t, Claims s q t → t.id ≠ i := by
    intro q t ht hid
    obtain ⟨-, hst⟩ := h.claimed q t ht (.store i) x hx (hxid.trans hid.symm)
    have hτ : t.stamp = τ := Option.some.inj (hst.symm.trans hxτ)
    have hqp := h.distinct q p t _ ht.1 hp hid hτ
    rw [hqp] at ht
    rw [Option.some.inj (ht.1.symm.trans hp)] at ht
    exact ht.2 rfl
  have hfin : Event.finished i ∉ s.log := by
    rw [← hxid]
    exact h.not_finished hx fun q t ht hid => hnone q t ht (hid.trans hxid)
  have hclaims : ∀ q t, Claims { s with timer := timer } q t →
      q = p ∧ t = ⟨i, τ, .claimed⟩ ∨ Claims s q t := by
    rintro q t ⟨hq, hphase⟩
    rcases hcases q t hq with hqp | ⟨-, hq⟩
    · exact Or.inl hqp
    · exact Or.inr ⟨hq, hphase⟩
  refine ⟨h.one, h.place, h.usedHeld, ?_, h.usedLog, ?_, ?_, ?_, ?_, ?_, ?_, h.safe⟩
  · intro q t hq
    obtain ⟨t', hq', hid, -⟩ := hback q t hq
    rw [← hid]
    exact h.usedTimer q t' hq'
  · intro q q' t t' hq hq' hid hst
    obtain ⟨u, hu, huid, hust⟩ := hback q t hq
    obtain ⟨u', hu', huid', hust'⟩ := hback q' t' hq'
    exact h.distinct q q' u u' hu hu' (by rw [huid, huid', hid]) (by rw [hust, hust', hst])
  · intro r y τ' hy hτ' q t hq hid
    obtain ⟨u, hu, huid, hust⟩ := hback q t hq
    rw [← hust]
    exact h.fresh r y τ' hy hτ' q u hu (huid.trans hid)
  · intro q t ht l y hy hid
    rcases hclaims q t ht with ⟨-, rfl⟩ | ht
    · have hl := h.one _ _ y x hy hx (hid.trans hxid.symm)
      subst hl
      rw [Option.some.inj (hy.symm.trans hx)]
      exact ⟨rfl, hxτ⟩
    · exact h.claimed q t ht l y hy hid
  · intro q q' t t' ht ht' hid
    rcases hclaims q t ht with ⟨rfl, rfl⟩ | ht <;> rcases hclaims q' t' ht' with ⟨rfl, rfl⟩ | ht'
    · rfl
    · exact absurd hid.symm (hnone q' t' ht')
    · exact absurd hid (hnone q t ht)
    · exact h.claimer q q' t t' ht ht' hid
  · intro l y hy hf
    obtain ⟨q, t, hq, hphase, hid⟩ := h.finished l y hy hf
    refine ⟨q, t, reset_of_ne htimer hq hp ?_, hphase, hid⟩
    rintro rfl
    cases hphase
  · intro q t hq hphase
    rcases hcases q t hq with ⟨-, rfl⟩ | ⟨-, hq⟩
    · exact hfin
    · exact h.pending q t hq hphase

/-- A timer that gives up without a claim. -/
theorem Inv.lapse [DecidableEq P] {s : State R P I T} (h : Inv s)
    {timer : P → Option (Timer I T)} {p : P} {i : I} {τ : T}
    (hp : s.timer p = some ⟨i, τ, .waiting⟩)
    (htimer : ∀ q, timer q = if q = p then none else s.timer q) :
    Inv { s with timer := timer } := by
  have hback : ∀ q t, timer q = some t → s.timer q = some t := by
    intro q t hq
    rw [htimer] at hq
    split at hq
    · cases hq
    · exact hq
  refine ⟨h.one, h.place, h.usedHeld, fun q t hq => h.usedTimer q t (hback q t hq), h.usedLog,
    fun q q' t t' hq hq' => h.distinct q q' t t' (hback q t hq) (hback q' t' hq'),
    fun r x τ hx hτ q t hq => h.fresh r x τ hx hτ q t (hback q t hq),
    fun q t ht => h.claimed q t ⟨hback q t ht.1, ht.2⟩,
    fun q q' t t' ht ht' => h.claimer q q' t t' ⟨hback q t ht.1, ht.2⟩ ⟨hback q' t' ht'.1, ht'.2⟩,
    ?_, fun q t hq => h.pending q t (hback q t hq), h.safe⟩
  intro l y hy hf
  obtain ⟨q, t, hq, hphase, hid⟩ := h.finished l y hy hf
  refine ⟨q, t, reset_of_ne htimer hq hp ?_, hphase, hid⟩
  rintro rfl
  cases hphase

/-- The timer finishes the item it claimed. -/
theorem Inv.expire [DecidableEq P] {s : State R P I T} (h : Inv s)
    {timer : P → Option (Timer I T)} {p : P} {i : I} {τ : T}
    (hp : s.timer p = some ⟨i, τ, .claimed⟩)
    (htimer : ∀ q, timer q = if q = p then some ⟨i, τ, .finished⟩ else s.timer q) :
    Inv { s with timer := timer, log := .finished i :: s.log } := by
  have hpc : Claims s p ⟨i, τ, .claimed⟩ := ⟨hp, fun h => by cases h⟩
  have hcases := reset_cases htimer
  have hback : ∀ q t, timer q = some t → ∃ t', s.timer q = some t' ∧ t'.id = t.id ∧
      t'.stamp = t.stamp ∧ (t.phase ≠ .waiting → t'.phase ≠ .waiting) := by
    intro q t hq
    rcases hcases q t hq with ⟨rfl, rfl⟩ | ⟨-, hq⟩
    · exact ⟨_, hp, rfl, rfl, fun _ => hpc.2⟩
    · exact ⟨t, hq, rfl, rfl, id⟩
  refine ⟨h.one, h.place, h.usedHeld, ?_, ?_, ?_, ?_, ?_, ?_, ?_, ?_,
    ⟨h.pending p _ hp rfl, h.safe⟩⟩
  · intro q t hq
    obtain ⟨u, hu, huid, -⟩ := hback q t hq
    rw [← huid]
    exact h.usedTimer q u hu
  · intro e he
    rcases List.mem_cons.mp he with rfl | he
    · exact h.usedTimer p _ hp
    · exact h.usedLog e he
  · intro q q' t t' hq hq' hid hst
    obtain ⟨u, hu, huid, hust, -⟩ := hback q t hq
    obtain ⟨u', hu', huid', hust', -⟩ := hback q' t' hq'
    exact h.distinct q q' u u' hu hu' (by rw [huid, huid', hid]) (by rw [hust, hust', hst])
  · intro r y τ' hy hτ' q t hq hid
    obtain ⟨u, hu, huid, hust, -⟩ := hback q t hq
    rw [← hust]
    exact h.fresh r y τ' hy hτ' q u hu (huid.trans hid)
  · intro q t ht l y hy hid
    obtain ⟨u, hu, huid, hust, hph⟩ := hback q t ht.1
    rw [← huid, ← hust]
    exact h.claimed q u ⟨hu, hph ht.2⟩ l y hy (hid.trans huid.symm)
  · intro q q' t t' ht ht' hid
    obtain ⟨u, hu, huid, -, hph⟩ := hback q t ht.1
    obtain ⟨u', hu', huid', -, hph'⟩ := hback q' t' ht'.1
    exact h.claimer q q' u u' ⟨hu, hph ht.2⟩ ⟨hu', hph' ht'.2⟩ (by rw [huid, huid', hid])
  · intro l y hy hf
    have hpt : timer p = some ⟨i, τ, .finished⟩ := by rw [htimer, if_pos rfl]
    rcases List.mem_cons.mp hf with heq | hf
    · cases heq
      exact ⟨p, _, hpt, rfl, rfl⟩
    · obtain ⟨q, t, hq, hphase, hid⟩ := h.finished l y hy hf
      refine ⟨q, t, reset_of_ne htimer hq hp ?_, hphase, hid⟩
      rintro rfl
      cases hphase
  · intro q t hq hphase hf
    rcases hcases q t hq with ⟨-, rfl⟩ | ⟨hne, hq⟩
    · cases hphase
    · rcases List.mem_cons.mp hf with heq | hf
      · have hid : t.id = i := by injection heq
        exact hne (h.claimer q p t _ ⟨hq, by rw [hphase]; exact fun h => by cases h⟩ hpc hid)
      · exact h.pending q t hq hphase hf

/-- A party works on the item it holds. -/
theorem Inv.work {s : State R P I T} (h : Inv s) {r : R} {x : Item I T}
    (hx : s.held (.party r) = some x) : Inv { s with log := .worked x.id :: s.log } where
  one := h.one
  place := h.place
  usedHeld := h.usedHeld
  usedTimer := h.usedTimer
  usedLog e he := by
    rcases List.mem_cons.mp he with rfl | he
    · exact h.usedHeld _ x hx
    · exact h.usedLog e he
  distinct := h.distinct
  fresh := h.fresh
  claimed := h.claimed
  claimer := h.claimer
  finished l y hy hf := by
    rcases List.mem_cons.mp hf with heq | hf
    · cases heq
    · exact h.finished l y hy hf
  pending p t ht hphase hf := by
    rcases List.mem_cons.mp hf with heq | hf
    · cases heq
    · exact h.pending p t ht hphase hf
  safe := ⟨h.party_not_finished hx, h.safe⟩

/-- A party finishes the item it holds; the item is gone. -/
theorem Inv.finish {s : State R P I T} (h : Inv s) {r : R} {x : Item I T}
    (hx : s.held (.party r) = some x) {held : Place R I → Option (Item I T)}
    (hheld : ∀ l y, held l = some y → l ≠ .party r ∧ s.held l = some y) :
    Inv { s with held := held, log := .finished x.id :: s.log } := by
  have hshrink := h.shrink fun l y hy => (hheld l y hy).2
  have hgone : ∀ l y, held l = some y → y.id ≠ x.id := by
    intro l y hy hid
    obtain ⟨hl, hy⟩ := hheld l y hy
    exact hl (h.one l _ y x hy hx hid)
  refine ⟨hshrink.one, hshrink.place, hshrink.usedHeld, hshrink.usedTimer, ?_, hshrink.distinct,
    hshrink.fresh, hshrink.claimed, hshrink.claimer, ?_, ?_,
    ⟨h.party_not_finished hx, h.safe⟩⟩
  · intro e he
    rcases List.mem_cons.mp he with rfl | he
    · exact h.usedHeld _ x hx
    · exact h.usedLog e he
  · intro l y hy hf
    rcases List.mem_cons.mp hf with heq | hf
    · injection heq with hid
      exact absurd hid (hgone l y hy)
    · exact hshrink.finished l y hy hf
  · intro p t ht hphase hf
    rcases List.mem_cons.mp hf with heq | hf
    · injection heq with hid
      exact h.not_claims hx ⟨ht, by rw [hphase]; exact fun h => by cases h⟩ hid
    · exact h.pending p t ht hphase hf

section Run

variable [DecidableEq R] [DecidableEq P] [DecidableEq I]

omit [DecidableEq P] in
theorem update_none {held : Place R I → Option (Item I T)} {l l' : Place R I} {x : Item I T}
    (h : Function.update held l none l' = some x) : l' ≠ l ∧ held l' = some x := by
  by_cases hl : l' = l
  · rw [hl, Function.update_self] at h
    cases h
  · rw [Function.update_of_ne hl] at h
    exact ⟨hl, h⟩

omit [DecidableEq P] in
/-- Taking an item from `l` and placing it at `l₁`. -/
theorem Inv.placed_update {s : State R P I T} (h : Inv s) {l : Place R I} {x y : Item I T}
    (hx : s.held l = some x) (hid : y.id = x.id) (l₁ : Place R I) :
    Placed s (Function.update (Function.update s.held l none) l₁ (some y)) l₁ y := by
  intro l' z hz
  by_cases hl : l' = l₁
  · rw [hl, Function.update_self] at hz
    exact Or.inl ⟨hl, (Option.some.inj hz).symm⟩
  · rw [Function.update_of_ne hl] at hz
    obtain ⟨hne, hz⟩ := update_none hz
    exact Or.inr ⟨hl, hz, fun hzid => hne (h.one l' l z x hz hx (hzid.trans hid))⟩

/-- The step lemma. -/
theorem Inv.step (s s' : State R P I T) (h : Inv s) (hs : Step s s') : Inv s' := by
  cases hs with
  | drop l => exact h.shrink fun l' x hx => (update_none hx).2
  | move l r x y hx hid hstamp hclaim =>
      have hno : ∀ p t, Claims s p t → t.id ≠ x.id := by
        intro p t ht htid
        cases l with
        | party r' => exact h.not_claims hx ht htid
        | store i => exact hclaim (by rw [h.place i x hx]) p t ht htid
      refine h.placed (h.placed_update hx hid _) (fun _ hi => hi) ?_ (fun i hi => by cases hi) ?_ ?_ ?_
      · rw [hid]
        exact h.usedHeld l x hx
      · intro _ τ _ hτ p t ht htid
        obtain ⟨⟨r', rfl⟩, hold | hnew⟩ := hstamp τ hτ
        · exact h.fresh r' x τ hx hold p t ht (htid.trans hid)
        · exact hnew p t ht (htid.trans hid)
      · rw [hid]
        exact hno
      · rw [hid]
        exact h.not_finished hx hno
  | create r i hi =>
      have hplaced : Placed s (Function.update s.held (.party r) (some ⟨i, none⟩)) (.party r)
          (⟨i, none⟩ : Item I T) := by
        intro l z hz
        by_cases hl : l = .party r
        · rw [hl, Function.update_self] at hz
          exact Or.inl ⟨hl, (Option.some.inj hz).symm⟩
        · rw [Function.update_of_ne hl] at hz
          refine Or.inr ⟨hl, hz, fun hzi => hi ?_⟩
          rw [← show z.id = i from hzi]
          exact h.usedHeld l z hz
      refine h.placed hplaced (Set.subset_insert i s.used) (Set.mem_insert i s.used)
        (fun j hj => by cases hj) (fun _ τ _ hτ => by cases hτ) ?_ ?_
      · rintro p t ⟨ht, -⟩ rfl
        exact hi (h.usedTimer p t ht)
      · intro hf
        exact hi (h.usedLog _ hf)
  | work r x hx => exact h.work hx
  | finish r x hx => exact h.finish hx fun l y hy => update_none hy
  | save r p i τ hx hp =>
      have hplaced := h.placed_update hx (Eq.refl (⟨i, some τ⟩ : Item I T).id) (.store i)
      have hstored := h.placed hplaced (fun _ hi => hi) (h.usedHeld _ _ hx)
        (fun j hj => by injection hj) (fun r' _ hr' => by cases hr')
        (fun q t ht => h.not_claims hx ht) (h.party_not_finished hx)
      exact hstored.armed hp (fun q => Function.update_apply ..) ⟨_, Function.update_self ..⟩
        fun q t ht htid => h.fresh r _ τ hx rfl q t ht htid
  | claim p i τ hp hx => exact h.claim hp (fun q => Function.update_apply ..) hx
  | lapse p i τ hp => exact h.lapse hp fun q => Function.update_apply ..
  | expire p i τ hp => exact h.expire hp fun q => Function.update_apply ..

theorem Inv.steps {s s' : State R P I T} (h : Inv s) (hs : Relation.ReflTransGen Step s s') :
    Inv s' := by
  induction hs with
  | refl => exact h
  | tail _ hstep ih => exact ih.step _ _ hstep

end Run

/-! ## What safety says -/

/-- A safe log finishes an item at most once. -/
theorem Safe.count_le_one [DecidableEq I] {log : List (Event I)} (h : Safe log) (i : I) :
    log.count (.finished i) ≤ 1 := by
  induction log with
  | nil => simp
  | cons e log ih =>
      rw [List.count_cons]
      by_cases he : e = .finished i
      · have hnot : Event.finished i ∉ log := by
          have := h.1
          rwa [he] at this
        rw [List.count_eq_zero_of_not_mem hnot]
        split <;> omega
      · have := ih h.2
        simp only [beq_iff_eq, he, if_false]
        omega

/-- In a safe log nothing follows a finish. -/
theorem Safe.not_mem_of_append {log later earlier : List (Event I)} (h : Safe log) {i : I}
    (hlog : log = later ++ .finished i :: earlier) : ∀ e ∈ later, e.id ≠ i := by
  subst hlog
  induction later with
  | nil => exact fun e he => by cases he
  | cons e later ih =>
      intro e' he'
      rcases List.mem_cons.mp he' with rfl | he'
      · rintro rfl
        exact h.1 (List.mem_append_right _ (List.mem_cons_self ..))
      · exact ih h.2 e' he'

end Custody

end GenieAcs
