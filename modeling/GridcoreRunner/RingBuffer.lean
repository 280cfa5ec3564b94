import Mathlib.Logic.Function.Basic
import Mathlib.Data.List.Perm.Subperm
import Mathlib.Data.List.Nodup
import Mathlib.Data.List.Range

/-!
# Ring buffers

A table of a fixed number of places, used round and round: the next to go stands at the head,
the next to come is put at the tail. What it holds is a list, put at the end and taken from
the front, as long as it holds no more than there are places.
-/

namespace GridcoreRunner.RingBuffer

set_option autoImplicit false

variable {α : Type*} {places : Nat}

/-- What a ring holds, from its head on. -/
def held (places : Nat) (table : Nat → α) (head count : Nat) : List α :=
  (List.range count).map fun k => table ((head + k) % places)

/-- The tail is a place of its own while there is room. -/
theorem tail_apart {count head k : Nat} (room : count < places) (inside : k < count) :
    (head + k) % places ≠ (head + count) % places := by
  intro same
  have distance : (head + count - (head + k)) % places = 0 :=
    Nat.sub_mod_eq_zero_of_mod_eq same.symm
  have short : head + count - (head + k) = count - k := by omega
  rw [short, Nat.mod_eq_of_lt (by omega)] at distance
  omega

theorem held_push {head count : Nat} (room : count < places) (table : Nat → α) (a : α) :
    held places (Function.update table ((head + count) % places) a) head (count + 1) =
      held places table head count ++ [a] := by
  unfold held
  rw [List.range_succ, List.map_append, List.map_cons, List.map_nil, Function.update_self]
  congr 1
  apply List.map_congr_left
  intro k inside
  exact Function.update_of_ne (tail_apart room (List.mem_range.mp inside)) a table

theorem held_pop (table : Nat → α) (head count : Nat) :
    held places table head (count + 1) =
      table (head % places) :: held places table ((head + 1) % places) count := by
  unfold held
  rw [List.range_succ_eq_map, List.map_cons, List.map_map, Nat.add_zero]
  congr 1
  apply List.map_congr_left
  intro k _
  have next : (head + (k + 1)) % places = ((head + 1) % places + k) % places := by
    rw [Nat.mod_add_mod]
    congr 1
    omega
  exact congrArg table next

theorem next_tail (head count : Nat) :
    ((head + count) % places + 1) % places = (head + (count + 1)) % places := by
  rw [Nat.mod_add_mod, Nat.add_assoc]

theorem tail_after_pop (head count : Nat) :
    ((head + 1) % places + count) % places = (head + (count + 1)) % places := by
  rw [Nat.mod_add_mod]
  congr 1
  omega

/-- Where all places are taken, the next to come takes the place of the oldest. -/
theorem held_overwrite {count : Nat} (full : count + 1 = places) {head : Nat}
    (inside : head < places) (table : Nat → α) (a : α) :
    held places (Function.update table head a) ((head + 1) % places) places =
      (held places table head places).tail ++ [a] := by
  have here : ((head + 1) % places + count) % places = head := by
    rw [tail_after_pop, full, Nat.add_mod_right, Nat.mod_eq_of_lt inside]
  have pushed := @held_push α places ((head + 1) % places) count (by omega) table a
  rw [here, full] at pushed
  have popped := @held_pop α places table head count
  rw [full] at popped
  rw [pushed, popped, List.tail_cons]

/-- A full ring holds what stands in its places. -/
theorem held_full {head : Nat} (inside : head < places) (table : Nat → α) :
    (held places table head places).Perm ((List.range places).map table) := by
  have turned : ((List.range places).map fun k => (head + k) % places).Perm
      (List.range places) := by
    apply List.Subperm.perm_of_length_le
    · apply List.subperm_of_subset
      · apply List.Nodup.map_on _ List.nodup_range
        intro i first j second same
        have low := List.mem_range.mp first
        have high := List.mem_range.mp second
        cases Nat.lt_trichotomy i j with
        | inl below =>
            exact absurd same (tail_apart high below)
        | inr rest =>
            cases rest with
            | inl same => exact same
            | inr above => exact absurd same.symm (tail_apart low above)
      · intro place member
        obtain ⟨k, _, at'⟩ := List.mem_map.mp member
        rw [← at', List.mem_range]
        exact Nat.mod_lt _ (by omega)
    · simp
  have mapped := turned.map table
  rw [List.map_map] at mapped
  exact mapped

end GridcoreRunner.RingBuffer
