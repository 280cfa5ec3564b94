import Mathlib.Algebra.GroupWithZero.Nat
import Mathlib.Data.List.Basic
import Mathlib.Data.List.Range
import Mathlib.Tactic.Common

/-!
# Writing into a bounded buffer

A sink takes what is written to it until its room is used up, and drops the rest.
Writing twice is writing once what the two wrote, so that a program of writes is
known by the text it would write into a buffer without a bound.
-/

namespace GridcoreRunner.Buffer

set_option autoImplicit false

variable {α : Type*}

structure Sink (α : Type*) where
  room : Nat
  out : List α

namespace Sink

def put (q : Sink α) (s : List α) : Sink α :=
  { q with out := q.out ++ s.take (q.room - q.out.length) }

def full (q : Sink α) : Bool := decide (q.room ≤ q.out.length)

@[simp] theorem put_nil (q : Sink α) : q.put [] = q := by
  unfold put
  rw [List.take_nil, List.append_nil]

@[simp] theorem put_put (q : Sink α) (s t : List α) : (q.put s).put t = q.put (s ++ t) := by
  unfold put
  dsimp only
  rw [List.append_assoc, List.take_append, List.length_append, List.length_take]
  congr 4
  omega

theorem full_put {q : Sink α} (full : q.full = true) (s : List α) : q.put s = q := by
  have used : q.room ≤ q.out.length := by simpa [Sink.full] using full
  unfold put
  rw [Nat.sub_eq_zero_of_le used, List.take_zero, List.append_nil]

/-- What arrives in an empty sink. -/
theorem put_out (room : Nat) (s : List α) : ((Sink.mk room []).put s).out = s.take room := by
  simp [put]

/-! ## Loops that stop when the sink is full -/

/-- Writes for `count` indices from `index` on. -/
def fill (write : Nat → Sink α → Sink α) : Nat → Nat → Sink α → Sink α
  | 0, _, q => q
  | count + 1, index, q => if q.full then q else fill write count (index + 1) (write index q)

theorem fill_put {write : Nat → Sink α → Sink α} {text : Nat → List α}
    (writes : ∀ index q, write index q = q.put (text index)) (count index : Nat) (q : Sink α) :
    fill write count index q = q.put ((List.range' index count).flatMap text) := by
  induction count generalizing index q with
  | zero => simp [fill]
  | succ count induction =>
      rw [fill]
      split_ifs with full
      · rw [full_put full]
      · rw [writes, induction, put_put, List.range'_succ, List.flatMap_cons]

/-! ## How much a program of writes writes -/

/-- The program writes one text of this length, into whatever sink. -/
def Writes (program : Sink α → Sink α) (size : Nat) : Prop :=
  ∃ s, s.length = size ∧ ∀ q, program q = q.put s

theorem writes_nothing : Writes (fun q : Sink α => q) 0 := ⟨[], rfl, fun q => (put_nil q).symm⟩

theorem writes_put (s : List α) : Writes (fun q => q.put s) s.length := ⟨s, rfl, fun _ => rfl⟩

theorem Writes.andThen {first second : Sink α → Sink α} {one two : Nat} (here : Writes first one)
    (there : Writes second two) : Writes (fun q => second (first q)) (one + two) := by
  rcases here with ⟨s, size, writes⟩
  rcases there with ⟨t, size', writes'⟩
  refine ⟨s ++ t, ?_, ?_⟩
  · rw [List.length_append, size, size']
  · intro q
    show second (first q) = q.put (s ++ t)
    rw [writes, writes', put_put]

theorem Writes.thenPut {first : Sink α → Sink α} {one : Nat} (here : Writes first one)
    (s : List α) : Writes (fun q => (first q).put s) (one + s.length) :=
  here.andThen (writes_put s)

theorem Writes.of_eq {program : Sink α → Sink α} {one two : Nat} (here : Writes program one)
    (same : one = two) : Writes program two := by
  rw [← same]
  exact here

theorem Writes.fill {write : Nat → Sink α → Sink α} {size : Nat → Nat}
    (each : ∀ index, Writes (write index) (size index)) (count index : Nat) :
    Writes (Sink.fill write count index) ((List.range' index count).map size).sum := by
  choose text sized writes using each
  refine ⟨(List.range' index count).flatMap text, ?_, ?_⟩
  · rw [List.length_flatMap]
    simp only [sized]
  · intro q
    exact fill_put writes count index q

/-- A sink of more room receives no more than one of this room, exactly when the text
fits. -/
theorem Writes.fits_iff {program : Sink α → Sink α} {size : Nat} (writes : Writes program size)
    (room : Nat) :
    (∀ more, room ≤ more → (program ⟨more, []⟩).out = (program ⟨room, []⟩).out) ↔ size ≤ room := by
  rcases writes with ⟨s, rfl, writes⟩
  simp only [writes, put_out]
  constructor
  · intro same
    have all := congrArg List.length (same (room + s.length) (by omega))
    rw [List.length_take, List.length_take] at all
    omega
  · intro fits more larger
    rw [List.take_of_length_le fits, List.take_of_length_le (by omega)]

end Sink

end GridcoreRunner.Buffer
