import Mathlib.Tactic.Common

/-!
# Runs that may go wrong

A function of a program ends with a value, gives up on its input, or goes wrong: it reads
where nothing may be read, or never ends. Such a run refines a function that can only give
up when both do the same and the run does not go wrong. The rules follow the shape of the
program.
-/

namespace GridcoreRunner

set_option autoImplicit false

variable {α β γ δ : Type}

inductive Outcome (α : Type)
  | wrong
  | refused
  | done (a : α)

namespace Outcome

def bind (run : Outcome α) (next : α → Outcome β) : Outcome β :=
  match run with
  | .wrong => .wrong
  | .refused => .refused
  | .done a => next a

def map (f : α → β) (run : Outcome α) : Outcome β := run.bind fun a => .done (f a)

@[simp] theorem bind_done (a : α) (next : α → Outcome β) : (Outcome.done a).bind next = next a := rfl

@[simp] theorem map_done (f : α → β) (a : α) : (Outcome.done a).map f = .done (f a) := rfl

theorem bind_eq_done {run : Outcome α} {next : α → Outcome β} {b : β} :
    run.bind next = .done b ↔ ∃ a, run = .done a ∧ next a = .done b := by
  cases run <;> simp [bind]

theorem bind_ne_wrong {run : Outcome α} {next : α → Outcome β} (ends : run ≠ .wrong)
    (later : ∀ a, run = .done a → next a ≠ .wrong) : run.bind next ≠ .wrong := by
  cases run with
  | wrong => exact absurd rfl ends
  | refused => simp [bind]
  | done a => exact later a rfl

/-- The run does what the option says, with values that are related. -/
def Refines (related : α → β → Prop) : Outcome α → Option β → Prop
  | .done a, some b => related a b
  | .refused, none => True
  | _, _ => False

variable {related : α → β → Prop} {after : γ → δ → Prop}

theorem refines_done {a : α} {b : β} (values : related a b) :
    Refines related (.done a) (some b) := values

theorem Refines.done_of_some {run : Outcome α} {b : β} (refines : Refines related run (some b)) :
    ∃ a, run = .done a ∧ related a b := by
  cases run with
  | wrong => exact refines.elim
  | refused => exact refines.elim
  | done a => exact ⟨a, rfl, refines⟩

theorem Refines.refused_of_none {run : Outcome α} (refines : Refines related run none) :
    run = .refused := by
  cases run with
  | wrong => exact refines.elim
  | refused => rfl
  | done a => exact refines.elim

/-- One step after another. -/
theorem refines_bind {run : Outcome α} {answer : Option β} {next : α → Outcome γ}
    {then_ : β → Option δ} (refines : Refines related run answer)
    (later : ∀ a b, related a b → Refines after (next a) (then_ b)) :
    Refines after (run.bind next) (answer.bind then_) := by
  cases answer with
  | none =>
      rw [refines.refused_of_none]
      exact trivial
  | some b =>
      obtain ⟨a, same, values⟩ := refines.done_of_some
      rw [same]
      exact later a b values

theorem refines_map {run : Outcome α} {answer : Option β} {f : α → γ} {g : β → δ}
    (refines : Refines related run answer) (values : ∀ a b, related a b → after (f a) (g b)) :
    Refines after (run.map f) (answer.map g) := by
  rw [Option.map_eq_bind]
  exact refines_bind refines fun a b both => refines_done (values a b both)

theorem refines_ite {condition : Prop} [Decidable condition] {run run' : Outcome α}
    {answer answer' : Option β} (yes : condition → Refines related run answer)
    (no : ¬condition → Refines related run' answer') :
    Refines related (if condition then run else run') (if condition then answer else answer') := by
  by_cases holds : condition
  · rw [if_pos holds, if_pos holds]
    exact yes holds
  · rw [if_neg holds, if_neg holds]
    exact no holds

end Outcome

end GridcoreRunner
