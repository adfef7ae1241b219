import Mathlib.Data.List.Forall2
import Mathlib.Tactic.Common

/-!
# Results of computations that may throw

When a sequence of computations in `Except` returns, and what it returns.
`ReturnsIff x ok post` says both of one computation: it returns just when `ok`
holds, and then a result that satisfies `post`.
-/

namespace GenieAcs

variable {ε α β : Type}

theorem bind_eq_ok_iff {x : Except ε α} {f : α → Except ε β} {b : β} :
    x >>= f = .ok b ↔ ∃ a, x = .ok a ∧ f a = .ok b := by
  cases x with
  | error e =>
      constructor
      · intro h
        cases h
      · rintro ⟨a, ha, -⟩
        cases ha
  | ok a =>
      constructor
      · exact fun h => ⟨a, rfl, h⟩
      · rintro ⟨a', ha, hf⟩
        rw [Except.ok.inj ha]
        exact hf

theorem bind_ok {x : Except ε α} {f : α → Except ε β} {a : α} {b : β} (hx : x = .ok a)
    (hf : f a = .ok b) : x >>= f = .ok b :=
  bind_eq_ok_iff.mpr ⟨a, hx, hf⟩

/-- A list all of whose elements are mapped without an error. -/
theorem mapM_ok {f : α → Except ε β} {P : α → β → Prop} {as : List α}
    (h : ∀ a ∈ as, ∃ b, f a = .ok b ∧ P a b) :
    ∃ bs, as.mapM f = .ok bs ∧ List.Forall₂ P as bs := by
  induction as with
  | nil => exact ⟨[], rfl, .nil⟩
  | cons a as ih =>
      obtain ⟨b, hb, hab⟩ := h a List.mem_cons_self
      obtain ⟨bs, hbs, habs⟩ := ih fun a ha => h a (List.mem_cons_of_mem _ ha)
      refine ⟨b :: bs, ?_, .cons hab habs⟩
      rw [List.mapM_cons]
      exact bind_ok hb (bind_ok hbs rfl)

/-- The results of a list that is mapped without an error. -/
theorem mapM_results {f : α → Except ε β} {as : List α} {bs : List β} (h : as.mapM f = .ok bs) :
    List.Forall₂ (fun a b => f a = .ok b) as bs := by
  induction as generalizing bs with
  | nil =>
      cases h
      exact .nil
  | cons a as ih =>
      rw [List.mapM_cons] at h
      obtain ⟨b, hb, h⟩ := bind_eq_ok_iff.mp h
      obtain ⟨bs', hbs, h⟩ := bind_eq_ok_iff.mp h
      cases h
      exact .cons hb (ih hbs)

/-! ## When a computation returns -/

structure ReturnsIff (x : Except ε α) (ok : Prop) (post : α → Prop) : Prop where
  returns : ok → ∃ a, x = .ok a
  result : ∀ a, x = .ok a → ok ∧ post a

namespace ReturnsIff

variable {x : Except ε α} {ok ok' : Prop} {post : α → Prop} {post' : β → Prop}

theorem pure {a : α} (h : post a) : ReturnsIff (Pure.pure a : Except ε α) True post where
  returns _ := ⟨a, rfl⟩
  result b hb := by
    cases hb
    exact ⟨trivial, h⟩

theorem bind {f : α → Except ε β} (hx : ReturnsIff x ok post)
    (hf : ∀ a, post a → ReturnsIff (f a) ok' post') : ReturnsIff (x >>= f) (ok ∧ ok') post' where
  returns h := by
    obtain ⟨a, ha⟩ := hx.returns h.1
    obtain ⟨b, hb⟩ := (hf a (hx.result a ha).2).returns h.2
    exact ⟨b, bind_ok ha hb⟩
  result b hb := by
    obtain ⟨a, ha, hb⟩ := bind_eq_ok_iff.mp hb
    obtain ⟨hok, hpost⟩ := hx.result a ha
    obtain ⟨hok', hpost'⟩ := (hf a hpost).result b hb
    exact ⟨⟨hok, hok'⟩, hpost'⟩

theorem map {f : α → β} (hx : ReturnsIff x ok post) (hf : ∀ a, post a → post' (f a)) :
    ReturnsIff (f <$> x) ok post' where
  returns h := by
    obtain ⟨a, rfl⟩ := hx.returns h
    exact ⟨f a, rfl⟩
  result b hb := by
    cases x with
    | error e => cases hb
    | ok a =>
        cases hb
        exact (hx.result a rfl).imp_right (hf a)

theorem congr (hx : ReturnsIff x ok post) (h : ok ↔ ok') : ReturnsIff x ok' post where
  returns hok := hx.returns (h.mpr hok)
  result a ha := (hx.result a ha).imp_left h.mp

/-- Going through a list returns just when every step does. -/
theorem mapM {γ : Type} {f : α → Except ε β} {g : γ → α} {ok : γ → Prop} {R : γ → β → Prop}
    {cs : List γ} (h : ∀ c ∈ cs, ReturnsIff (f (g c)) (ok c) (R c)) :
    ReturnsIff ((cs.map g).mapM f) (∀ c ∈ cs, ok c) fun bs => List.Forall₂ R cs bs := by
  induction cs with
  | nil => exact (ReturnsIff.pure .nil).congr (by simp)
  | cons c cs ih =>
      have ih := ih fun c hc => h c (List.mem_cons_of_mem _ hc)
      rw [List.map_cons, List.mapM_cons]
      refine ((h c List.mem_cons_self).bind fun b hb => ih.bind fun bs hbs =>
        ReturnsIff.pure (List.Forall₂.cons hb hbs)).congr ?_
      rw [List.forall_mem_cons, and_true]

end ReturnsIff

/-! ## Lists with related elements -/

theorem exists_right_of_forall₂ {R : α → β → Prop} {as : List α} {bs : List β}
    (h : List.Forall₂ R as bs) {a : α} (ha : a ∈ as) : ∃ b ∈ bs, R a b := by
  induction h with
  | nil => cases ha
  | cons hab _ ih =>
      rcases List.mem_cons.mp ha with rfl | ha
      · exact ⟨_, List.mem_cons_self, hab⟩
      · obtain ⟨b, hb, hab⟩ := ih ha
        exact ⟨b, List.mem_cons_of_mem _ hb, hab⟩

theorem exists_left_of_forall₂ {R : α → β → Prop} {as : List α} {bs : List β}
    (h : List.Forall₂ R as bs) {b : β} (hb : b ∈ bs) : ∃ a ∈ as, R a b :=
  exists_right_of_forall₂ h.flip hb

theorem forall_mem_of_forall₂ {P : β → Prop} {as : List α} {bs : List β}
    (h : List.Forall₂ (fun _ b => P b) as bs) : ∀ b ∈ bs, P b := fun _ hb => by
  obtain ⟨_, -, hp⟩ := exists_left_of_forall₂ h hb
  exact hp

end GenieAcs
