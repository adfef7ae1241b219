import Mathlib.Data.List.Forall2
import Mathlib.Tactic.Common

/-!
# Computations that return

`Returns x s post`: the computation `x`, started in `s`, throws nothing, and
its result and its final state satisfy `post`. `Ensures x s post` says the same
of a computation that may throw. One rule for each way of building a
computation, and one for going through a list.
-/

namespace GenieAcs

variable {σ ε α β : Type}

def Returns (x : StateT σ (Except ε) α) (s : σ) (post : α → σ → Prop) : Prop :=
  ∃ a s', x.run s = .ok (a, s') ∧ post a s'

namespace Returns

variable {s : σ} {x : StateT σ (Except ε) α} {f : α → StateT σ (Except ε) β}

theorem pure {a : α} {post : α → σ → Prop} (h : post a s) :
    Returns (Pure.pure a : StateT σ (Except ε) α) s post :=
  ⟨a, s, rfl, h⟩

theorem mono {post post' : α → σ → Prop} (h : Returns x s post)
    (himp : ∀ a s', post a s' → post' a s') : Returns x s post' := by
  obtain ⟨a, s', hrun, hp⟩ := h
  exact ⟨a, s', hrun, himp a s' hp⟩

theorem bind {post : α → σ → Prop} {post' : β → σ → Prop} (hx : Returns x s post)
    (hf : ∀ a s', post a s' → Returns (f a) s' post') : Returns (x >>= f) s post' := by
  obtain ⟨a, s', hrun, hp⟩ := hx
  obtain ⟨b, s'', hrun', hp'⟩ := hf a s' hp
  refine ⟨b, s'', ?_, hp'⟩
  rw [StateT.run_bind, hrun]
  exact hrun'

theorem lift_bind {y : Except ε α} {a : α} {post : β → σ → Prop} (hy : y = .ok a)
    (h : Returns (f a) s post) : Returns (liftM y >>= f) s post := by
  subst hy
  exact h

theorem get_bind {g : σ → StateT σ (Except ε) β} {post : β → σ → Prop}
    (h : Returns (g s) s post) : Returns (MonadState.get >>= g) s post := h

theorem set_bind {s' : σ} {g : PUnit → StateT σ (Except ε) β} {post : β → σ → Prop}
    (h : Returns (g ⟨⟩) s' post) : Returns (MonadStateOf.set s' >>= g) s post := h

end Returns

/-- If `x`, started in `s`, throws nothing, its result and its final state
satisfy `post`. -/
def Ensures (x : StateT σ (Except ε) α) (s : σ) (post : α → σ → Prop) : Prop :=
  ∀ a s', x.run s = .ok (a, s') → post a s'

namespace Ensures

variable {s : σ} {x : StateT σ (Except ε) α} {f : α → StateT σ (Except ε) β}

theorem pure {a : α} {post : α → σ → Prop} (h : post a s) :
    Ensures (Pure.pure a : StateT σ (Except ε) α) s post := by
  rintro _ _ hrun
  cases hrun
  exact h

theorem throw {e : ε} {post : α → σ → Prop} :
    Ensures (MonadExceptOf.throw e : StateT σ (Except ε) α) s post := by
  rintro _ _ hrun
  cases hrun

theorem mono {post post' : α → σ → Prop} (h : Ensures x s post)
    (himp : ∀ a s', post a s' → post' a s') : Ensures x s post' :=
  fun a s' hrun => himp a s' (h a s' hrun)

theorem bind {post : α → σ → Prop} {post' : β → σ → Prop} (hx : Ensures x s post)
    (hf : ∀ a s', post a s' → Ensures (f a) s' post') : Ensures (x >>= f) s post' := by
  intro b s'' hrun
  rw [StateT.run_bind] at hrun
  cases hx' : x.run s with
  | error e =>
      rw [hx'] at hrun
      cases hrun
  | ok r =>
      rw [hx'] at hrun
      exact hf r.1 r.2 (hx r.1 r.2 hx') b s'' hrun

theorem lift_bind {y : Except ε α} {post : β → σ → Prop}
    (h : ∀ a, y = .ok a → Ensures (f a) s post) : Ensures (liftM y >>= f) s post := by
  cases y with
  | error e => exact fun _ _ hrun => nomatch hrun
  | ok a => exact h a rfl

theorem get_bind {g : σ → StateT σ (Except ε) β} {post : β → σ → Prop}
    (h : Ensures (g s) s post) : Ensures (MonadState.get >>= g) s post := h

theorem set_bind {s' : σ} {g : PUnit → StateT σ (Except ε) β} {post : β → σ → Prop}
    (h : Ensures (g ⟨⟩) s' post) : Ensures (MonadStateOf.set s' >>= g) s post := h

/-- Going through a list. `inv` holds of the states, `post` is what each
element's result satisfies in the state it ends in, and goes on satisfying. -/
theorem mapM (le : σ → σ → Prop) {inv : σ → Prop} {post : α → β → σ → Prop}
    {g : α → StateT σ (Except ε) β} (hrefl : ∀ s, le s s) (htrans : ∀ a b c, le a b → le b c → le a c)
    (hkeep : ∀ a b s s', post a b s → le s s' → post a b s') :
    ∀ {as : List α} {s : σ}, inv s →
      (∀ a ∈ as, ∀ s, inv s → Ensures (g a) s fun b s' => inv s' ∧ le s s' ∧ post a b s') →
      Ensures (as.mapM g) s fun bs s' =>
        inv s' ∧ le s s' ∧ List.Forall₂ (fun a b => post a b s') as bs := by
  intro as
  induction as with
  | nil =>
      intro s hs _
      rw [List.mapM_nil]
      exact pure ⟨hs, hrefl s, List.Forall₂.nil⟩
  | cons a as ih =>
      intro s hs hg
      rw [List.mapM_cons]
      refine bind (hg a (List.mem_cons_self ..) s hs) fun b s₁ hb => ?_
      refine bind (ih hb.1 fun a' ha' => hg a' (List.mem_cons_of_mem _ ha')) fun bs s₂ hbs => ?_
      refine pure ⟨hbs.1, htrans _ _ _ hb.2.1 hbs.2.1, List.Forall₂.cons ?_ hbs.2.2⟩
      exact hkeep _ _ _ _ hb.2.2 hbs.2.1

/-- Going through a list never ends if it does not for some element. -/
theorem mapM_never {g : α → StateT σ (Except ε) β} {a : α}
    (ha : ∀ s, Ensures (g a) s fun _ _ => False) :
    ∀ {as : List α} (_ : a ∈ as) (s : σ), Ensures (as.mapM g) s fun _ _ => False := by
  intro as
  induction as with
  | nil => exact fun hmem => absurd hmem List.not_mem_nil
  | cons a' as ih =>
      intro hmem s
      rw [List.mapM_cons]
      rcases List.mem_cons.mp hmem with rfl | hmem
      · exact bind (ha s) fun _ _ => False.elim
      · refine @bind _ _ _ _ _ _ _ (fun _ _ => True) _ (fun _ _ _ => trivial) fun b s₁ _ => ?_
        exact bind (ih hmem s₁) fun _ _ => False.elim

end Ensures

end GenieAcs
