import Mathlib.Data.List.Basic

/-!
# Runs of a partial transition function

`fire` is undefined where an event is not allowed. `meets` is a side condition on
the events taken; an unrestricted run has the condition that always holds.
-/

namespace GridcoreRunner.Runs

set_option autoImplicit false

variable {State Event : Type*}

inductive Reaches (start : State → Prop) (fire : State → Event → Option State)
    (meets : State → Event → Prop) : State → Prop
  | start (state : State) (init : start state) : Reaches start fire meets state
  | step (state next : State) (event : Event) (run : Reaches start fire meets state)
      (met : meets state event) (fired : fire state event = some next) :
      Reaches start fire meets next

/-- No condition on the events. -/
abbrev Reachable (start : State → Prop) (fire : State → Event → Option State) : State → Prop :=
  Reaches start fire fun _ _ => True

variable {start : State → Prop} {fire : State → Event → Option State}
variable {meets : State → Event → Prop}

/-- What holds at the start and is kept by every event that meets the condition
holds wherever such events lead. -/
theorem Reaches.invariant {holds : State → Prop} (init : ∀ state, start state → holds state)
    (kept : ∀ state next event, holds state → meets state event →
      fire state event = some next → holds next)
    {state : State} (run : Reaches start fire meets state) : holds state := by
  induction run with
  | start state begun => exact init state begun
  | step state next event run met fired induction =>
      exact kept state next event induction met fired

theorem Reaches.weaken {looser : State → Event → Prop} {state : State}
    (run : Reaches start fire meets state)
    (implied : ∀ state event, meets state event → looser state event) :
    Reaches start fire looser state := by
  induction run with
  | start state begun => exact .start state begun
  | step state next event run met fired induction =>
      exact .step state next event induction (implied state event met) fired

/-- The state behind an event, for events that are known to be allowed. -/
def advance (fire : State → Event → Option State) (state : State) (event : Event) : State :=
  (fire state event).getD state

theorem Reaches.advance {state : State} (run : Reaches start fire meets state) (event : Event)
    (met : meets state event) (allowed : (fire state event).isSome = true) :
    Reaches start fire meets (advance fire state event) := by
  obtain ⟨next, fired⟩ := Option.isSome_iff_exists.mp allowed
  have landed : Runs.advance fire state event = next := by simp [Runs.advance, fired]
  rw [landed]
  exact .step state next event run met fired

/-- The state behind a list of events, for events that are known to be allowed. -/
def play (fire : State → Event → Option State) (state : State) (events : List Event) : State :=
  (events.foldlM fire state).getD state

theorem Reaches.plays {state : State} (run : Reaches start fire meets state) (events : List Event)
    (met : ∀ event ∈ events, ∀ before, meets before event)
    (allowed : (events.foldlM fire state).isSome = true) :
    Reaches start fire meets (play fire state events) := by
  induction events generalizing state with
  | nil => exact run
  | cons event events induction =>
      unfold play
      rw [List.foldlM_cons] at allowed ⊢
      cases fired : fire state event with
      | none =>
          rw [fired] at allowed
          cases allowed
      | some next =>
          rw [fired] at allowed
          have step := Reaches.step state next event run
            (met event List.mem_cons_self state) fired
          have rest := induction step
            (fun later inside => met later (List.mem_cons_of_mem event inside)) allowed
          rcases Option.isSome_iff_exists.mp allowed with ⟨last, landed⟩
          have landed' : events.foldlM fire next = some last := landed
          unfold play at rest
          rw [landed'] at rest
          rw [Option.bind_eq_bind, Option.bind_some, landed']
          exact rest

end GridcoreRunner.Runs
