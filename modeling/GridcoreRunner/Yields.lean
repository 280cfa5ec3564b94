import Mathlib.Tactic.Common

/-!
# What a program that may fail yields

A property of the results of a program in `Except`, with a rule for each way to build one. A
program that fails yields whatever is asked of it.
-/

namespace GridcoreRunner

set_option autoImplicit false

variable {ε α β : Type}

/-- Every result has the property. -/
def Yields (P : α → Prop) (program : Except ε α) : Prop := ∀ a, program = .ok a → P a

variable {P : α → Prop} {Q : β → Prop}

theorem yields_ok {a : α} (holds : P a) : Yields P (.ok a : Except ε α) := by
  intro b same
  cases same
  exact holds

theorem yields_error (e : ε) : Yields P (.error e) := by
  intro b never
  cases never

theorem yields_any (program : Except ε α) : Yields (fun _ => True) program := fun _ _ => trivial

theorem Yields.weaken {P' : α → Prop} {program : Except ε α} (yields : Yields P program)
    (weaker : ∀ a, P a → P' a) : Yields P' program := fun a result => weaker a (yields a result)

theorem yields_bind {program : Except ε α} {next : α → Except ε β} (first : Yields P program)
    (later : ∀ a, P a → Yields Q (next a)) : Yields Q (program >>= next) := by
  intro b result
  cases program with
  | error e => cases result
  | ok a => exact later a (first a rfl) b result

/-- A step whose result does not matter. -/
theorem yields_then {program : Except ε α} {next : α → Except ε β}
    (later : ∀ a, Yields Q (next a)) : Yields Q (program >>= next) :=
  yields_bind (yields_any program) fun a _ => later a

theorem yields_map {program : Except ε α} {f : α → β} (first : Yields P program)
    (later : ∀ a, P a → Q (f a)) : Yields Q (program.map f) := by
  intro b result
  cases program with
  | error e => cases result
  | ok a =>
      cases result
      exact later a (first a rfl)

theorem yields_ite {here there : Except ε α} (C : Prop) [Decidable C]
    (left : C → Yields P here) (right : ¬C → Yields P there) :
    Yields P (if C then here else there) := by
  by_cases holds : C
  · rw [if_pos holds]
    exact left holds
  · rw [if_neg holds]
    exact right holds

/-- The results of one program for each item of a list. -/
theorem yields_map_m {γ : Type} {each : γ → Except ε α} {items : List γ}
    (one : ∀ item ∈ items, Yields P (each item)) :
    Yields (fun results => (∀ a ∈ results, P a) ∧ results.length = items.length)
      (items.mapM each) := by
  induction items with
  | nil =>
      rw [List.mapM_nil]
      exact yields_ok ⟨fun _ never => (List.not_mem_nil never).elim, rfl⟩
  | cons item rest induction =>
      rw [List.mapM_cons]
      have behind := induction fun other member => one other (List.mem_cons_of_mem _ member)
      refine yields_bind (one item List.mem_cons_self) ?_
      intro a holds
      refine yields_bind behind ?_
      intro results both
      exact yields_ok ⟨List.forall_mem_cons.mpr ⟨holds, both.1⟩, congrArg Nat.succ both.2⟩

end GridcoreRunner
