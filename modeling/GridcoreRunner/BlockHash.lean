import Mathlib.Data.List.Basic
import Mathlib.Data.List.Range
import Mathlib.Tactic.Common

/-!
# Hashing block by block

A hash that takes its input in blocks of one size keeps the items of the block that is not
yet full. Items can come in pieces of any length: what is kept, and what has been made of the
full blocks, depends on the whole input only.
-/

namespace GridcoreRunner.BlockHash

set_option autoImplicit false

variable {σ α : Type*}

/-- What has been made of the full blocks, and the block that is not yet full. -/
structure Absorber (σ α : Type*) where
  state : σ
  kept : List α

section Absorb

variable (size : Nat) (compress : σ → List α → σ)

/-- One item comes in. -/
def push (a : Absorber σ α) (item : α) : Absorber σ α :=
  if (a.kept ++ [item]).length = size then ⟨compress a.state (a.kept ++ [item]), []⟩
  else ⟨a.state, a.kept ++ [item]⟩

def absorb (a : Absorber σ α) (items : List α) : Absorber σ α :=
  items.foldl (push size compress) a

/-- The `i`-th block of an input. -/
def block (items : List α) (i : Nat) : List α := (items.drop (size * i)).take size

/-- What the full blocks of an input come to. -/
def digest (start : σ) (items : List α) : σ :=
  (List.range (items.length / size)).foldl (fun state i => compress state (block size items i))
    start

end Absorb

variable {size : Nat} {compress : σ → List α → σ}

theorem absorb_append (a : Absorber σ α) (first second : List α) :
    absorb size compress a (first ++ second) =
      absorb size compress (absorb size compress a first) second := by
  unfold absorb
  rw [List.foldl_append]

/-- Items that do not fill the block are kept. -/
theorem absorb_short {a : Absorber σ α} {items : List α}
    (room : a.kept.length + items.length < size) :
    absorb size compress a items = ⟨a.state, a.kept ++ items⟩ := by
  induction items generalizing a with
  | nil =>
      rw [List.append_nil]
      rfl
  | cons item items induction =>
      rw [List.length_cons] at room
      have kept : push size compress a item = ⟨a.state, a.kept ++ [item]⟩ := by
        unfold push
        rw [if_neg]
        rw [List.length_append, List.length_singleton]
        omega
      have rest := induction (a := ⟨a.state, a.kept ++ [item]⟩) (by
        simp only [List.length_append, List.length_singleton]
        omega)
      unfold absorb at rest ⊢
      rw [List.foldl_cons, kept, rest, List.append_assoc, List.singleton_append]

/-- Items that fill the block exactly make a step of it. -/
theorem absorb_full {a : Absorber σ α} {items : List α} (some' : items ≠ [])
    (full : a.kept.length + items.length = size) :
    absorb size compress a items = ⟨compress a.state (a.kept ++ items), []⟩ := by
  obtain ⟨front, last, split⟩ : ∃ front last, items = front ++ [last] :=
    ⟨items.dropLast, items.getLast some', (List.dropLast_append_getLast some').symm⟩
  subst split
  rw [List.length_append, List.length_singleton] at full
  have short : absorb size compress a front = ⟨a.state, a.kept ++ front⟩ :=
    absorb_short (by omega)
  rw [absorb_append, short]
  unfold absorb push
  rw [List.foldl_cons, List.foldl_nil, if_pos, List.append_assoc]
  simp only [List.length_append, List.length_singleton]
  omega

/-- The blocks of an input, one after the other. -/
theorem absorb_blocks (positive : 0 < size) (start : σ) (items : List α) {k : Nat}
    (inside : size * k ≤ items.length) :
    absorb size compress ⟨start, []⟩ (items.take (size * k)) =
      ⟨(List.range k).foldl (fun state i => compress state (block size items i)) start, []⟩ := by
  induction k with
  | zero =>
      rw [Nat.mul_zero, List.take_zero]
      rfl
  | succ k induction =>
      rw [Nat.mul_succ] at inside
      have length : (block size items k).length = size := by
        unfold block
        rw [List.length_take, List.length_drop]
        omega
      have some' : block size items k ≠ [] := by
        intro none'
        rw [none', List.length_nil] at length
        omega
      have split : items.take (size * (k + 1)) =
          items.take (size * k) ++ block size items k := by
        unfold block
        rw [Nat.mul_succ, List.take_add]
      rw [split, absorb_append, induction (by omega), absorb_full some', List.nil_append,
        List.range_succ, List.foldl_append]
      · rfl
      · rw [List.length_nil, Nat.zero_add, length]

/-- The whole of an input: its full blocks are digested, the rest is kept. -/
theorem absorb_all (positive : 0 < size) (start : σ) (items : List α) :
    absorb size compress ⟨start, []⟩ items =
      ⟨digest size compress start items, items.drop (size * (items.length / size))⟩ := by
  have whole := Nat.div_add_mod items.length size
  have rest := Nat.mod_lt items.length positive
  have split := List.take_append_drop (size * (items.length / size)) items
  have blocks := @absorb_blocks _ _ size compress positive start items
    (items.length / size) (by omega)
  conv_lhs => rw [← split]
  rw [absorb_append, blocks, absorb_short, List.nil_append]
  · rfl
  · rw [List.length_nil, List.length_drop]
    omega

end GridcoreRunner.BlockHash
