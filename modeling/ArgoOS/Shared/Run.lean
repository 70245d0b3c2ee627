import Mathlib

set_option autoImplicit false

/-!
# Runs of a stepper

A stepper is a partial function: an action that never returns has no successor.
Each step adds its events to the history, newest first, and `meets` is what the
steps of a run are required to meet in the state they start from.
-/

namespace Stepper

variable {State Action Event : Type}

inductive Run (step : State → Action → Option (State × List Event))
    (meets : State → Action → Prop) (start : State) : List Event → State → Prop where
  | refl : Run step meets start [] start
  | step (history : List Event) (before after : State) (action : Action) (events : List Event)
      (previous : Run step meets start history before) (met : meets before action)
      (taken : step before action = some (after, events)) :
      Run step meets start (events ++ history) after

variable {step : State → Action → Option (State × List Event)} {meets : State → Action → Prop}

theorem Run.invariant {start : State} (Inv : List Event → State → Prop) (initial : Inv [] start)
    (preserved : ∀ history before after action events, Inv history before →
      meets before action → step before action = some (after, events) →
      Inv (events ++ history) after)
    {history : List Event} {state : State} (run : Run step meets start history state) :
    Inv history state := by
  induction run with
  | refl => exact initial
  | step history before after action events _ met taken ih =>
    exact preserved history before after action events ih met taken

theorem Run.mono {other : State → Action → Prop} {start : State}
    (weaker : ∀ state action, meets state action → other state action)
    {history : List Event} {state : State} (run : Run step meets start history state) :
    Run step other start history state := by
  induction run with
  | refl => exact .refl
  | step history before after action events _ met taken ih =>
    exact .step history before after action events ih (weaker before action met) taken

-- The run that takes the given actions in turn, if each can be taken and meets the
-- requirement.
def runActions (step : State → Action → Option (State × List Event))
    (meets : State → Action → Prop) [∀ state action, Decidable (meets state action)] :
    List Event → State → List Action → Option (List Event × State)
  | history, state, [] => some (history, state)
  | history, state, action :: actions =>
    if meets state action then
      match step state action with
      | none => none
      | some (after, events) => runActions step meets (events ++ history) after actions
    else none

theorem Run.of_actions [∀ state action, Decidable (meets state action)] {start : State}
    {actions : List Action} {history history' : List Event} {state state' : State}
    (previous : Run step meets start history state)
    (taken : runActions step meets history state actions = some (history', state')) :
    Run step meets start history' state' := by
  induction actions generalizing history state with
  | nil =>
    simp only [runActions] at taken
    cases taken
    exact previous
  | cons action actions ih =>
    simp only [runActions] at taken
    split at taken
    · next met =>
      split at taken
      · contradiction
      · next after events stepped =>
        exact ih (.step history state after action events previous met stepped) taken
    · contradiction

theorem Run.exists_of_actions (step : State → Action → Option (State × List Event))
    (meets : State → Action → Prop) [∀ state action, Decidable (meets state action)]
    (start : State) (actions : List Action) (check : List Event → State → Bool)
    (passed : (runActions step meets [] start actions).any (fun r => check r.1 r.2) = true) :
    ∃ history state, Run step meets start history state ∧ check history state = true := by
  rw [Option.any_eq_true] at passed
  obtain ⟨⟨history, state⟩, taken, checked⟩ := passed
  exact ⟨history, state, Run.of_actions .refl taken, checked⟩

theorem loop_invariant (body : State → Nat → Option State) (first count : Nat)
    (Inv : Nat → State → Prop) {state : State} (initial : Inv first state)
    (preserved : ∀ i before, first ≤ i → i < first + count → Inv i before →
      ∃ after, body before i = some after ∧ Inv (i + 1) after) :
    ∃ after, (List.range' first count).foldlM body state = some after ∧
      Inv (first + count) after := by
  induction count generalizing first state with
  | zero => exact ⟨state, rfl, initial⟩
  | succ count ih =>
    obtain ⟨middle, taken, inv⟩ := preserved first state (Nat.le_refl first) (by omega) initial
    obtain ⟨after, rest, final⟩ := ih (first + 1) inv fun i before low high =>
      preserved i before (by omega) (by omega)
    refine ⟨after, ?_, ?_⟩
    · rw [List.range'_succ, List.foldlM_cons, taken]
      exact rest
    · rwa [Nat.add_right_comm] at final

end Stepper
