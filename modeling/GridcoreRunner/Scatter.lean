import Mathlib.Logic.Function.Basic
import Mathlib.Data.List.Nodup
import Mathlib.Data.List.Range
import Mathlib.Tactic.Common

/-!
# Writing to several places of a table

A table is a function from indices. A list of writes goes to it one after the other; where
no index is written twice, every place holds what its own write put there. And how many of
the first places of a table satisfy a test.
-/

namespace GridcoreRunner.Table

set_option autoImplicit false

variable {α β : Type*}

/-- One write after the other, each changing the value at its place. -/
def scatter (put : α → β → β) (writes : List (Nat × α)) (table : Nat → β) : Nat → β :=
  writes.foldl (fun table w => Function.update table w.1 (put w.2 (table w.1))) table

theorem scatter_miss (put : α → β → β) {writes : List (Nat × α)} {i : Nat}
    (miss : i ∉ writes.map Prod.fst) (table : Nat → β) : scatter put writes table i = table i := by
  induction writes generalizing table with
  | nil => rfl
  | cons w writes induction =>
      rw [List.map_cons, List.mem_cons, not_or] at miss
      have rest := induction miss.2 (Function.update table w.1 (put w.2 (table w.1)))
      rw [Function.update_of_ne miss.1] at rest
      exact rest

theorem scatter_hit (put : α → β → β) {writes : List (Nat × α)} {i : Nat} {a : α}
    (once : (writes.map Prod.fst).Nodup) (hit : (i, a) ∈ writes) (table : Nat → β) :
    scatter put writes table i = put a (table i) := by
  induction writes generalizing table with
  | nil => cases hit
  | cons w writes induction =>
      rw [List.map_cons, List.nodup_cons] at once
      have unfolded : scatter put (w :: writes) table =
          scatter put writes (Function.update table w.1 (put w.2 (table w.1))) := rfl
      rw [unfolded]
      rcases List.mem_cons.mp hit with first | later
      · cases first
        rw [scatter_miss put once.1, Function.update_self]
      · have other : i ≠ w.1 := by
          intro same
          apply once.1
          rw [← same]
          exact List.mem_map.mpr ⟨(i, a), later, rfl⟩
        rw [induction once.2 later, Function.update_of_ne other]

/-- What every write keeps, the whole scatter keeps. -/
theorem scatter_keeps (put : α → β → β) {holds : β → Prop}
    (keeps : ∀ a b, holds b → holds (put a b)) (writes : List (Nat × α)) {table : Nat → β} {i : Nat}
    (before : holds (table i)) : holds (scatter put writes table i) := by
  induction writes generalizing table with
  | nil => exact before
  | cons w writes induction =>
      apply @induction (Function.update table w.1 (put w.2 (table w.1)))
      by_cases here : i = w.1
      · rw [← here, Function.update_self]
        exact keeps w.2 (table i) before
      · rw [Function.update_of_ne here]
        exact before

/-- A loop that stores to one place after the other, from `base` on. -/
theorem stores_at (value : Nat → β) (base n : Nat) (table : Nat → β) (i : Nat) :
    (List.range n).foldl (fun table k => Function.update table (base + k) (value k)) table i =
      if base ≤ i ∧ i < base + n then value (i - base) else table i := by
  induction n with
  | zero =>
      have outside : ¬ (base ≤ i ∧ i < base + 0) := by omega
      rw [if_neg outside]
      rfl
  | succ n induction =>
      rw [List.range_succ, List.foldl_append, List.foldl_cons, List.foldl_nil]
      by_cases last : i = base + n
      · rw [last, Function.update_self, if_pos (by omega), Nat.add_sub_cancel_left]
      · rw [Function.update_of_ne last, induction]
        exact if_congr (by omega) rfl rfl

/-- A list of consecutive blocks is one list. -/
theorem blocks_map {γ : Type*} (value : Nat → γ) (width n : Nat) :
    (List.range n).flatMap (fun b => (List.range width).map fun k => value (width * b + k)) =
      (List.range (width * n)).map value := by
  induction n with
  | zero => rfl
  | succ n induction =>
      rw [List.range_succ, List.flatMap_append, induction, List.flatMap_singleton, Nat.mul_succ,
        List.range_add, List.map_append, List.map_map]
      rfl

/-! ## Counting -/

/-- How many of the first `n` places pass. -/
def count (test : β → Bool) (n : Nat) (table : Nat → β) : Nat :=
  (List.range n).countP fun i => test (table i)

theorem count_succ (test : β → Bool) (n : Nat) (table : Nat → β) :
    count test (n + 1) table = count test n table + (if test (table n) then 1 else 0) := by
  unfold count
  rw [List.range_succ, List.countP_append, List.countP_singleton]

theorem count_congr {test : β → Bool} {n : Nat} {table other : Nat → β}
    (same : ∀ i < n, test (table i) = test (other i)) : count test n table = count test n other := by
  induction n with
  | zero => rfl
  | succ n induction =>
      rw [count_succ, count_succ, induction fun i below => same i (Nat.lt_succ_of_lt below),
        same n (Nat.lt_succ_self n)]

/-- Changing one place changes the count by what that place counts for. -/
theorem count_update (test : β → Bool) {n i : Nat} (inside : i < n) (table : Nat → β) (b : β) :
    count test n (Function.update table i b) + (if test (table i) then 1 else 0) =
      count test n table + (if test b then 1 else 0) := by
  induction n with
  | zero => exact absurd inside (Nat.not_lt_zero i)
  | succ n induction =>
      rw [count_succ, count_succ]
      by_cases last : i = n
      · have before : count test n (Function.update table i b) = count test n table := by
          apply count_congr
          intro j below
          rw [Function.update_of_ne (by omega)]
        rw [before, last, Function.update_self]
        omega
      · have earlier := induction (by omega)
        rw [Function.update_of_ne (Ne.symm last)]
        omega

theorem count_zero {test : β → Bool} {n : Nat} {table : Nat → β}
    (none' : ∀ i < n, test (table i) = false) : count test n table = 0 := by
  unfold count
  rw [List.countP_eq_zero]
  intro i inside passes
  rw [none' i (List.mem_range.mp inside)] at passes
  cases passes

/-- The count is the length of the list of places that pass. -/
theorem count_eq_length (test : β → Bool) (n : Nat) (table : Nat → β) :
    count test n table = ((List.range n).filter fun i => test (table i)).length :=
  List.countP_eq_length_filter

end GridcoreRunner.Table
