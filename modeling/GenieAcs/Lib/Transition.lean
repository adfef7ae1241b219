import Mathlib.Data.List.Forall2
import Mathlib.Logic.Relation

/-!
# Runs of machines

Two rules for machines that take step after step. A *transducer* answers
each input with an output; a relation kept by every admissible input
relates the outputs of whole runs (`outputs_related`). A *transition
relation* has reachable states; a predicate that holds initially and is
kept by each step holds of every reachable state (`Reachable.invariant`).
-/

namespace GenieAcs

namespace Transducer

variable {S S' I O : Type*}

/-- The outputs of a run. -/
def outputs (step : S → I → S × O) : S → List I → List O
  | _, [] => []
  | s, i :: is => (step s i).2 :: outputs step (step s i).1 is

/-- Every input of the run is admissible in the state that receives it. -/
def Admissible (ok : S → I → Prop) (step : S → I → S × O) : S → List I → Prop
  | _, [] => True
  | s, i :: is => ok s i ∧ Admissible ok step (step s i).1 is

theorem outputs_related {step : S → I → S × O} {step' : S' → I → S' × O}
    {ok : S → I → Prop} {R : S → S' → Prop} {E : O → O → Prop}
    (hstep : ∀ s s' i, R s s' → ok s i →
      E (step s i).2 (step' s' i).2 ∧ R (step s i).1 (step' s' i).1)
    {s : S} {s' : S'} (h : R s s') {is : List I} (hok : Admissible ok step s is) :
    List.Forall₂ E (outputs step s is) (outputs step' s' is) := by
  induction is generalizing s s' with
  | nil => exact List.Forall₂.nil
  | cons i is ih =>
      obtain ⟨hE, hR⟩ := hstep s s' i h hok.1
      exact List.Forall₂.cons hE (ih hR hok.2)

end Transducer

/-- The states a transition relation reaches from an initial one. -/
inductive Reachable {S : Type*} (init : S → Prop) (step : S → S → Prop) : S → Prop
  | init {s} : init s → Reachable init step s
  | step {s s'} : Reachable init step s → step s s' → Reachable init step s'

theorem Reachable.invariant {S : Type*} {init : S → Prop} {step : S → S → Prop}
    {P : S → Prop} (h0 : ∀ s, init s → P s) (h1 : ∀ s s', P s → step s s' → P s')
    {s : S} (h : Reachable init step s) : P s := by
  induction h with
  | init hs => exact h0 _ hs
  | step _ hstep ih => exact h1 _ _ ih hstep

end GenieAcs
