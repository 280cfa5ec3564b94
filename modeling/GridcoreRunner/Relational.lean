import Mathlib.Logic.Function.Basic

/-!
# Programs that cannot tell related states apart

A program over a state agrees, for a relation before it and one after it, if from any
two related states it gives the same answer and leaves related states behind. The
rules follow the program's shape. A machine whose commands all keep one relation
answers alike, for ever, from related states.
-/

namespace GridcoreRunner.Relational

set_option autoImplicit false

variable {σ α β ι : Type}

/-- What the program reads of its state. -/
def reads (read : σ → α) : StateM σ α := fun s => (read s, s)

/-- What the program writes to its state. -/
def writes (write : σ → σ) : StateM σ Unit := fun s => ((), write s)

/-- Two outcomes with the same answer and related states. -/
def Outcomes (after : α → σ → σ → Prop) (x y : α × σ) : Prop := x.1 = y.1 ∧ after x.1 x.2 y.2

/-- From related states the program answers the same, and its states stay related. -/
def Agree (before : σ → σ → Prop) (program : StateM σ α) (after : α → σ → σ → Prop) : Prop :=
  ∀ a b, before a b → Outcomes after (program a) (program b)

section Rules

variable {before middle : σ → σ → Prop} {after : α → σ → σ → Prop}

theorem agree_pure {answer : α} (keeps : ∀ a b, before a b → after answer a b) :
    Agree before (pure answer) after := by
  intro a b related
  exact ⟨rfl, keeps a b related⟩

theorem agree_bind {first : StateM σ β} {next : β → StateM σ α} {between : β → σ → σ → Prop}
    (firstAgrees : Agree before first between)
    (nextAgrees : ∀ answer, Agree (between answer) (next answer) after) :
    Agree before (first >>= next) after := by
  intro a b related
  have firstHolds := firstAgrees a b related
  have nextHolds := nextAgrees (first a).1 (first a).2 (first b).2 firstHolds.2
  change Outcomes after (next (first a).1 (first a).2) (next (first b).1 (first b).2)
  rw [← firstHolds.1]
  exact nextHolds

theorem outcomes_ite {condition : Prop} [Decidable condition] {x y x' y' : α × σ}
    (yes : Outcomes after x y) (no : Outcomes after x' y') :
    Outcomes after (if condition then x else x') (if condition then y else y') := by
  split
  · exact yes
  · exact no

/-- What is made of the answer is the same too. -/
theorem outcomes_map {x y : β × σ} {relation : σ → σ → Prop} (make : β → α)
    (outcomes : Outcomes (fun _ => relation) x y) :
    Outcomes (fun _ => relation) (make x.1, x.2) (make y.1, y.2) := by
  constructor
  · exact congrArg make outcomes.1
  · exact outcomes.2

end Rules

/-! ## Machines -/

section Machines

variable (step : ι → StateM σ α)

/-- The answers to a list of commands, one after the other. -/
def answers : List ι → σ → List α
  | [], _ => []
  | command :: rest, s => (step command s).1 :: answers rest (step command s).2

/-- The state that a list of commands leaves behind. -/
def afterAll : List ι → σ → σ
  | [], s => s
  | command :: rest, s => afterAll rest (step command s).2

variable {step} {relation : σ → σ → Prop}

theorem answers_agree (agrees : ∀ command, Agree relation (step command) (fun _ => relation))
    (commands : List ι) {a b : σ} (related : relation a b) :
    answers step commands a = answers step commands b := by
  induction commands generalizing a b with
  | nil => rfl
  | cons command rest ih =>
      have holds := agrees command a b related
      simp only [answers]
      rw [holds.1, ih holds.2]

end Machines

end GridcoreRunner.Relational
