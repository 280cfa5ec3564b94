import Mathlib.Data.List.Basic
import Mathlib.Tactic.Common

/-!
# Well-formed UTF-8

The machine that reads a byte string as UTF-8, one byte at a time. Between
characters it stands on the ground; after a leading byte it owes continuation
bytes, the first of them from a range that leaves out overlong spellings,
surrogates and values past U+10FFFF. A byte string is well formed when the
machine reads all of it and ends on the ground.
-/

namespace GridcoreRunner.Utf8

set_option autoImplicit false

/-- Where the machine stands; `owes more low high` still owes `more + 1` bytes,
the next of them between `low` and `high`. -/
inductive State
  | ground
  | owes (more : Nat) (low high : UInt8)
deriving DecidableEq

/-- The state after the first byte of a character. -/
def lead (b : UInt8) : Option State :=
  if b < 0x80 then some .ground
  else if b < 0xC2 then none
  else if b < 0xE0 then some (.owes 0 0x80 0xBF)
  else if b = 0xE0 then some (.owes 1 0xA0 0xBF)
  else if b = 0xED then some (.owes 1 0x80 0x9F)
  else if b < 0xF0 then some (.owes 1 0x80 0xBF)
  else if b = 0xF0 then some (.owes 2 0x90 0xBF)
  else if b < 0xF4 then some (.owes 2 0x80 0xBF)
  else if b = 0xF4 then some (.owes 2 0x80 0x8F)
  else none

/-- One byte. -/
def step : State → UInt8 → Option State
  | .ground, b => lead b
  | .owes 0 low high, b => if low ≤ b ∧ b ≤ high then some .ground else none
  | .owes (more + 1) low high, b =>
      if low ≤ b ∧ b ≤ high then some (.owes more 0x80 0xBF) else none

/-- All bytes of a text. -/
def run : State → List UInt8 → Option State
  | state, [] => some state
  | state, b :: text => (step state b).bind fun next => run next text

@[simp] theorem run_owes_nil (more : Nat) (low high : UInt8) :
    run (.owes more low high) [] ≠ some .ground := by
  simp [run]

@[simp] theorem run_owes_zero (low high b : UInt8) (text : List UInt8) (last : State) :
    run (.owes 0 low high) (b :: text) = some last ↔
      (low ≤ b ∧ b ≤ high) ∧ run .ground text = some last := by
  simp only [run, step, Option.bind_eq_some_iff, Option.ite_none_right_eq_some, Option.some.injEq]
  grind

@[simp] theorem run_owes_succ (more : Nat) (low high b : UInt8) (text : List UInt8)
    (last : State) :
    run (.owes (more + 1) low high) (b :: text) = some last ↔
      (low ≤ b ∧ b ≤ high) ∧ run (.owes more 0x80 0xBF) text = some last := by
  simp only [run, step, Option.bind_eq_some_iff, Option.ite_none_right_eq_some, Option.some.injEq]
  grind

/-- The bytes that finish a character are all there and none of them is ASCII. -/
theorem run_owes_take {more : Nat} {low high : UInt8} {text : List UInt8} (above : 0x80 ≤ low)
    (ran : run (.owes more low high) (text.take (more + 1)) = some .ground) :
    more + 1 ≤ text.length ∧ ∀ b ∈ text.take (more + 1), 0x80 ≤ b := by
  induction more generalizing low high text with
  | zero =>
      cases text with
      | nil => simp at ran
      | cons b text =>
          simp only [List.take_succ_cons, run_owes_zero] at ran
          simp only [List.length_cons, List.take_succ_cons, List.take_zero, List.mem_singleton,
            forall_eq]
          exact ⟨by omega, UInt8.le_trans above ran.1.1⟩
  | succ more induction =>
      cases text with
      | nil => simp at ran
      | cons b text =>
          simp only [List.take_succ_cons, run_owes_succ] at ran
          have rest := induction (UInt8.le_refl _) ran.2
          simp only [List.length_cons, List.take_succ_cons, List.mem_cons, forall_eq_or_imp]
          exact ⟨by omega, UInt8.le_trans above ran.1.1, rest.2⟩

/-- A run from inside a character finishes it and goes on from the ground. -/
theorem run_owes_split {more : Nat} {low high : UInt8} {text : List UInt8}
    (ran : run (.owes more low high) text = some .ground) :
    run (.owes more low high) (text.take (more + 1)) = some .ground ∧
      run .ground (text.drop (more + 1)) = some .ground := by
  induction more generalizing low high text with
  | zero =>
      cases text with
      | nil => simp at ran
      | cons b text =>
          simp only [run_owes_zero] at ran
          simp only [List.take_succ_cons, List.drop_succ_cons, List.take_zero, List.drop_zero,
            run_owes_zero]
          exact ⟨⟨ran.1, rfl⟩, ran.2⟩
  | succ more induction =>
      cases text with
      | nil => simp at ran
      | cons b text =>
          simp only [run_owes_succ] at ran
          simp only [List.take_succ_cons, List.drop_succ_cons, run_owes_succ]
          have rest := induction ran.2
          exact ⟨⟨ran.1, rest.1⟩, rest.2⟩

/-- The text is a sequence of whole characters. -/
def wellFormed (text : List UInt8) : Bool := run .ground text == some .ground

/-- Every byte is an ASCII character. -/
def Ascii (text : List UInt8) : Prop := ∀ b ∈ text, b < 0x80

theorem run_append (state : State) (front back : List UInt8) :
    run state (front ++ back) = (run state front).bind fun next => run next back := by
  induction front generalizing state with
  | nil => rfl
  | cons b front induction =>
      simp only [List.cons_append, run]
      cases step state b with
      | none => rfl
      | some next => exact induction next

theorem step_ascii {b : UInt8} (ascii : b < 0x80) : step .ground b = some .ground := by
  simp [step, lead, ascii]

theorem run_ascii {text : List UInt8} (ascii : Ascii text) : run .ground text = some .ground := by
  induction text with
  | nil => rfl
  | cons b text induction =>
      simp only [run, step_ascii (ascii b (by simp)), Option.bind_some]
      exact induction fun c member => ascii c (List.mem_cons_of_mem _ member)

/-- Inside a character no ASCII byte is read. -/
theorem step_owes_ascii {more : Nat} {low high b : UInt8} (ascii : b < 0x80)
    (above : 0x80 ≤ low) : step (.owes more low high) b = none := by
  cases more <;> simp only [step, ite_eq_right_iff, reduceCtorEq, imp_false] <;> grind

/-- Every state that a run reaches owes bytes above the ASCII range only. -/
def State.High : State → Prop
  | .ground => True
  | .owes _ low _ => 0x80 ≤ low

theorem step_high {state next : State} {b : UInt8} (stepped : step state b = some next) :
    next.High := by
  cases state with
  | ground =>
      simp only [step, lead] at stepped
      grind [State.High]
  | owes more low high => cases more <;> grind [step, State.High]

theorem run_high {state next : State} {text : List UInt8} (start : state.High)
    (ran : run state text = some next) : next.High := by
  induction text generalizing state with
  | nil =>
      cases ran
      exact start
  | cons b text induction =>
      simp only [run, Option.bind_eq_some_iff] at ran
      rcases ran with ⟨middle, stepped, rest⟩
      exact induction (step_high stepped) rest

@[simp] theorem well_formed_nil : wellFormed [] = true := rfl

/-- In front of ASCII text nothing may be left open. -/
theorem well_formed_append_ascii {front ascii : List UInt8} (plain : Ascii ascii) :
    wellFormed (front ++ ascii) = wellFormed front := by
  unfold wellFormed
  rw [run_append]
  cases ran : run .ground front with
  | none => rfl
  | some state =>
      simp only [Option.bind_some]
      cases state with
      | ground => rw [run_ascii plain]
      | owes more low high =>
          cases ascii with
          | nil => rfl
          | cons b text =>
              have above : 0x80 ≤ low := @run_high .ground _ front True.intro ran
              rw [run, step_owes_ascii (plain b (by simp)) above]
              rfl

theorem well_formed_cons_ascii {b : UInt8} {text : List UInt8} (ascii : b < 0x80) :
    wellFormed (b :: text) = wellFormed text := by
  simp [wellFormed, run, step_ascii ascii]

theorem well_formed_ascii_append {ascii back : List UInt8} (plain : Ascii ascii) :
    wellFormed (ascii ++ back) = wellFormed back := by
  simp [wellFormed, run_append, run_ascii plain]

end GridcoreRunner.Utf8
