import GridcoreRunner.Fields
import GridcoreRunner.Scatter
import Mathlib.Algebra.Order.Floor.Ring
import Mathlib.Data.Rat.Floor
import Mathlib.Tactic.FieldSimp
import Mathlib.Tactic.Linarith
import Mathlib.Tactic.Positivity
import Mathlib.Tactic.Ring

/-!
# Repacking to Q4_0

`quantize_row_q4_0` with `q4_0_grid_exact` before it, and `dq_q4_0`, in exact arithmetic.
Halves are any type that the two conversions go to and from. What the exactness test accepts
is read back as it was; where the weights lie on a grid whose step is a half, the step is
among the candidates, or the weights reach the one code that only the derived scale has.
-/

namespace GridcoreRunner.Quant

set_option autoImplicit false

open Fields

/-- `roundf`: halves away from zero. -/
def roundf (x : ℚ) : ℤ := if x < 0 then -⌊-x + 1 / 2⌋ else ⌊x + 1 / 2⌋

/-- The cast from `float` to `int`. -/
def truncate (x : ℚ) : ℤ := if x < 0 then -⌊-x⌋ else ⌊x⌋

theorem roundf_int (k : ℤ) : roundf k = k := by
  have half : ⌊(1 / 2 : ℚ)⌋ = 0 := by
    rw [Int.floor_eq_zero_iff]
    norm_num
  unfold roundf
  by_cases negative : (k : ℚ) < 0
  · rw [if_pos negative, ← Int.cast_neg, Int.floor_intCast_add, half]
    omega
  · rw [if_neg negative, Int.floor_intCast_add, half]
    omega

/-- Finite values of sixteen bits: eleven bits of significand over 2 to the 24th. -/
def IsF16 (x : ℚ) : Prop := ∃ m : ℤ, ∃ e ≤ 29, |m| < 2048 ∧ x = m * 2 ^ e / 2 ^ 24

theorem IsF16.neg {x : ℚ} (half : IsF16 x) : IsF16 (-x) := by
  obtain ⟨m, e, exponent, small, value⟩ := half
  refine ⟨-m, e, exponent, ?_, ?_⟩
  · rw [abs_neg]
    exact small
  · rw [value, Int.cast_neg]
    ring

theorem IsF16.abs {x : ℚ} (half : IsF16 x) : IsF16 |x| := by
  rcases abs_choice x with same | negated
  · rw [same]
    exact half
  · rw [negated]
    exact half.neg

structure BlockQ4_0 (H : Type) where
  d : H
  qs : Nat → Nat

section Writer

variable {H : Type} (f32_to_f16 : ℚ → H) (f16_to_f32 : H → ℚ)

/-- The smallest magnitude that is not zero, if there is any. -/
def amin (x : Nat → ℚ) : ℚ × Bool :=
  (List.range 32).foldl
    (fun s j => if |x j| ≠ 0 ∧ (s.2 = false ∨ |x j| < s.1) then (|x j|, true) else s) (0, false)

/-- The test of one weight against a candidate. -/
def onGrid (ds x : ℚ) : Bool :=
  let kf := roundf (x / ds)
  if kf < -8 ∨ 7 < kf then false else decide (ds * kf = x)

def gridCode (ds x : ℚ) : Nat := u8 (roundf (x / ds) + 8).toNat

/-- The loop that stores two codes a byte. -/
def storeCodes (q : Nat → Nat) (qs : Nat → Nat) : Nat → Nat :=
  (List.range 16).foldl (fun qs j => Function.update qs (0 + j) (u8 (q j ||| q (j + 16) <<< 4))) qs

/-- The candidate `m`. -/
def gridTry (x : Nat → ℚ) (least : ℚ) (b : BlockQ4_0 H) (m : Nat) : Option (BlockQ4_0 H) :=
  let dh := f32_to_f16 (least / m)
  let ds := f16_to_f32 dh
  if ds = 0 then none
  else if (List.range 32).all fun j => onGrid ds (x j) then
    some ⟨dh, storeCodes (fun j => gridCode ds (x j)) b.qs⟩
  else none

def q4_0GridExact (x : Nat → ℚ) (b : BlockQ4_0 H) : Option (BlockQ4_0 H) :=
  let least := amin x
  if least.2 = false then none
  else (List.range 8).findSome? fun i => gridTry f32_to_f16 f16_to_f32 x least.1 b (i + 1)

/-- The weight of the largest magnitude, the first of them, after its magnitude. -/
def amax (x : Nat → ℚ) : ℚ × ℚ :=
  (List.range 32).foldl (fun s j => if s.1 < |x j| then (|x j|, x j) else s) (0, 0)

def derivedCode (id x : ℚ) : Nat :=
  let q := truncate (x * id + 17 / 2)
  let q := if 15 < q then 15 else q
  (if q < 0 then 0 else q).toNat

def q4_0Derived (x : Nat → ℚ) (b : BlockQ4_0 H) : BlockQ4_0 H :=
  let d := (amax x).2 / (-8)
  let id := if d ≠ 0 then 1 / d else 0
  ⟨f32_to_f16 d, storeCodes (fun j => derivedCode id (x j)) b.qs⟩

def quantizeBlockQ4_0 (x : Nat → ℚ) (b : BlockQ4_0 H) : BlockQ4_0 H :=
  match q4_0GridExact f32_to_f16 f16_to_f32 x b with
  | some written => written
  | none => q4_0Derived f32_to_f16 x b

def quantizeRowQ4_0 (x : Nat → ℚ) (dst : Nat → BlockQ4_0 H) (n : Nat) : Nat → BlockQ4_0 H :=
  (List.range (n / 32)).foldl
    (fun dst i => Function.update dst i
      (quantizeBlockQ4_0 f32_to_f16 f16_to_f32 (fun j => x (i * 32 + j)) (dst i))) dst

def dqQ4_0 (b : BlockQ4_0 H) (y : Nat → ℚ) : Nat → ℚ :=
  let d := f16_to_f32 b.d
  (List.range 16).foldl
    (fun y j => Function.update (Function.update y j ((((b.qs j &&& 15 : Nat) : ℤ) - 8 : ℤ) * d))
      (j + 16) ((((b.qs j >>> 4 : Nat) : ℤ) - 8 : ℤ) * d)) y

/-! ## The codes of a block -/

theorem store_codes (q qs : Nat → Nat) {j : Nat} (place : j < 16) :
    storeCodes q qs j = u8 (q j ||| q (j + 16) <<< 4) := by
  unfold storeCodes
  rw [Table.stores_at, if_pos (by omega), Nat.sub_zero]

/-- What the reader makes of the first `n` bytes. -/
theorem dq_rounds (d : ℚ) (qs : Nat → Nat) (y : Nat → ℚ) {n : Nat} (within : n ≤ 16) (i : Nat) :
    (List.range n).foldl
        (fun y j => Function.update (Function.update y j ((((qs j &&& 15 : Nat) : ℤ) - 8 : ℤ) * d))
          (j + 16) ((((qs j >>> 4 : Nat) : ℤ) - 8 : ℤ) * d)) y i =
      if i < n then (((qs i &&& 15 : Nat) : ℤ) - 8 : ℤ) * d
      else if 16 ≤ i ∧ i < 16 + n then (((qs (i - 16) >>> 4 : Nat) : ℤ) - 8 : ℤ) * d
      else y i := by
  induction n with
  | zero =>
      rw [if_neg (Nat.not_lt_zero i), if_neg (by omega)]
      rfl
  | succ n induction =>
      rw [List.range_succ, List.foldl_append, List.foldl_cons, List.foldl_nil]
      by_cases upper : i = n + 16
      · have place : n + 16 - 16 = n := by omega
        rw [upper, Function.update_self, if_neg (by omega), if_pos (by omega), place]
      · rw [Function.update_of_ne upper]
        by_cases lower : i = n
        · rw [lower, Function.update_self, if_pos (by omega)]
        · rw [Function.update_of_ne lower, induction (by omega)]
          by_cases before : i < n
          · rw [if_pos before, if_pos (by omega)]
          · rw [if_neg before, if_neg (show ¬ i < n + 1 by omega)]
            exact if_congr (by omega) rfl rfl

/-- Codes that fit four bits come back with the scale of the block. -/
theorem dq_stored {H : Type} (f16_to_f32 : H → ℚ) (d : H) {q : Nat → Nat} (qs : Nat → Nat)
    (codes : ∀ j < 32, q j < 16) (y : Nat → ℚ) {j : Nat} (place : j < 32) :
    dqQ4_0 f16_to_f32 ⟨d, storeCodes q qs⟩ y j = ((q j : ℤ) - 8 : ℤ) * f16_to_f32 d := by
  unfold dqQ4_0
  rw [dq_rounds _ _ _ (Nat.le_refl 16)]
  by_cases low : j < 16
  · have byte := codes j place
    have other := codes (j + 16) (by omega)
    have nibble : storeCodes q qs j &&& 15 = q j := by
      rw [store_codes q qs low, nibbles byte other, mask_four]
      omega
    rw [if_pos low]
    dsimp only
    rw [nibble]
  · have byte := codes (j - 16) (by omega)
    have other := codes j place
    have index : j - 16 + 16 = j := by omega
    have nibble : storeCodes q qs (j - 16) >>> 4 = q j := by
      rw [store_codes q qs (by omega), index, nibbles byte other, Nat.shiftRight_eq_div_pow]
      omega
    rw [if_neg low, if_pos (by omega)]
    dsimp only
    rw [nibble]

/-! ## The exactness test -/

/-- A weight that passes is the scale times a code of four bits. -/
theorem onGrid_sound {ds x : ℚ} (passes : onGrid ds x = true) :
    gridCode ds x < 16 ∧ ((gridCode ds x : ℤ) - 8 : ℤ) * ds = x := by
  unfold onGrid at passes
  dsimp only at passes
  by_cases outside : roundf (x / ds) < -8 ∨ 7 < roundf (x / ds)
  · rw [if_pos outside] at passes
    cases passes
  · rw [if_neg outside, decide_eq_true_eq] at passes
    have code : (gridCode ds x : ℤ) = roundf (x / ds) + 8 := by
      unfold gridCode
      rw [u8_small (by omega)]
      omega
    constructor
    · omega
    · rw [code, show roundf (x / ds) + 8 - 8 = roundf (x / ds) by omega, mul_comm]
      exact passes

theorem onGrid_multiple {ds : ℚ} (nonzero : ds ≠ 0) {k : ℤ} (low : -8 ≤ k) (high : k ≤ 7) :
    onGrid ds (ds * k) = true := by
  have quotient : ds * k / ds = k := mul_div_cancel_left₀ (k : ℚ) nonzero
  unfold onGrid
  dsimp only
  rw [quotient, roundf_int, if_neg (by omega)]
  exact decide_eq_true rfl

section Blocks

variable {H : Type} {f32_to_f16 : ℚ → H} {f16_to_f32 : H → ℚ}

/-- Whatever block is given, what the test accepts is read back as it was. -/
theorem gridTry_exact {x : Nat → ℚ} {least : ℚ} {b written : BlockQ4_0 H} {m : Nat}
    (accepted : gridTry f32_to_f16 f16_to_f32 x least b m = some written) (y : Nat → ℚ) :
    ∀ j < 32, dqQ4_0 f16_to_f32 written y j = x j := by
  unfold gridTry at accepted
  dsimp only at accepted
  by_cases underflow : f16_to_f32 (f32_to_f16 (least / m)) = 0
  · rw [if_pos underflow] at accepted
    cases accepted
  · rw [if_neg underflow] at accepted
    by_cases passes : ((List.range 32).all fun j =>
        onGrid (f16_to_f32 (f32_to_f16 (least / m))) (x j)) = true
    · rw [if_pos passes, Option.some.injEq] at accepted
      have each : ∀ j < 32, onGrid (f16_to_f32 (f32_to_f16 (least / m))) (x j) = true :=
        fun j below => List.all_eq_true.mp passes j (List.mem_range.mpr below)
      intro j place
      rw [← accepted,
        dq_stored f16_to_f32 _ _ (fun i below => (onGrid_sound (each i below)).1) y place]
      exact (onGrid_sound (each j place)).2
    · rw [if_neg passes] at accepted
      cases accepted

theorem grid_exact_sound {x : Nat → ℚ} {b written : BlockQ4_0 H}
    (accepted : q4_0GridExact f32_to_f16 f16_to_f32 x b = some written) (y : Nat → ℚ) :
    ∀ j < 32, dqQ4_0 f16_to_f32 written y j = x j := by
  unfold q4_0GridExact at accepted
  dsimp only at accepted
  by_cases zeros : (amin x).2 = false
  · rw [if_pos zeros] at accepted
    cases accepted
  · rw [if_neg zeros] at accepted
    obtain ⟨i, _, tried⟩ := List.exists_of_findSome?_eq_some accepted
    exact gridTry_exact tried y

/-- A step that is a half and carries the whole block is accepted when its candidate is tried. -/
theorem gridTry_accepts (identity : ∀ v, IsF16 v → f16_to_f32 (f32_to_f16 v) = v) {x : Nat → ℚ}
    {least step : ℚ} {m : Nat} (candidate : least / m = step) (half : IsF16 step)
    (nonzero : step ≠ 0) {k : Nat → ℤ} (codes : ∀ j < 32, -8 ≤ k j ∧ k j ≤ 7)
    (multiples : ∀ j < 32, x j = step * k j) (b : BlockQ4_0 H) :
    ∃ written, gridTry f32_to_f16 f16_to_f32 x least b m = some written := by
  have scale : f16_to_f32 (f32_to_f16 (least / m)) = step := by
    rw [candidate]
    exact identity step half
  have passes : ((List.range 32).all fun j => onGrid step (x j)) = true := by
    rw [List.all_eq_true]
    intro j member
    have place := List.mem_range.mp member
    rw [multiples j place]
    exact onGrid_multiple nonzero (codes j place).1 (codes j place).2
  unfold gridTry
  dsimp only
  rw [scale, if_neg nonzero, if_pos passes]
  exact ⟨_, rfl⟩

end Blocks

/-! ## The magnitudes -/

/-- After `n` weights the least magnitude is one of them, and none that is not zero is below it. -/
theorem amin_spec (x : Nat → ℚ) (n : Nat) :
    let s := (List.range n).foldl
      (fun s j => if |x j| ≠ 0 ∧ (s.2 = false ∨ |x j| < s.1) then (|x j|, true) else s)
      ((0 : ℚ), false)
    (s.2 = false → ∀ j < n, x j = 0) ∧
      (s.2 = true → (∃ j < n, x j ≠ 0 ∧ s.1 = |x j|) ∧ ∀ j < n, x j ≠ 0 → s.1 ≤ |x j|) := by
  induction n with
  | zero => exact ⟨fun _ j below => absurd below (Nat.not_lt_zero j), (fun never => by cases never)⟩
  | succ n induction =>
      rw [List.range_succ, List.foldl_append, List.foldl_cons, List.foldl_nil]
      set s := (List.range n).foldl
        (fun s j => if |x j| ≠ 0 ∧ (s.2 = false ∨ |x j| < s.1) then (|x j|, true) else s)
        ((0 : ℚ), false)
      obtain ⟨without, found⟩ := induction
      dsimp only
      by_cases taken : |x n| ≠ 0 ∧ (s.2 = false ∨ |x n| < s.1)
      · rw [if_pos taken]
        have nonzero : x n ≠ 0 := abs_ne_zero.mp taken.1
        refine ⟨(fun never => by cases never), fun _ => ⟨⟨n, by omega, nonzero, rfl⟩, ?_⟩⟩
        intro j below present
        by_cases last : j = n
        · rw [last]
        · rcases taken.2 with first | smaller
          · exact absurd (without first j (by omega)) present
          · cases any : s.2 with
            | false => exact absurd (without any j (by omega)) present
            | true =>
                have bound := (found any).2 j (by omega) present
                exact le_trans (le_of_lt smaller) bound
      · rw [if_neg taken]
        constructor
        · intro none' j below
          by_cases last : j = n
          · rw [last]
            by_contra present
            exact taken ⟨abs_ne_zero.mpr present, Or.inl none'⟩
          · exact without none' j (by omega)
        · intro any
          obtain ⟨⟨j, below, present, value⟩, least⟩ := found any
          refine ⟨⟨j, by omega, present, value⟩, ?_⟩
          intro i within nonzero
          by_cases last : i = n
          · rw [last] at nonzero ⊢
            by_contra smaller
            exact taken ⟨abs_ne_zero.mpr nonzero, Or.inr (not_le.mp smaller)⟩
          · exact least i (by omega) nonzero

/-- After `n` weights the magnitude bounds all of them and belongs to the weight beside it. -/
theorem amax_spec (x : Nat → ℚ) (n : Nat) :
    let s := (List.range n).foldl (fun s j => if s.1 < |x j| then (|x j|, x j) else s)
      ((0 : ℚ), (0 : ℚ))
    (∀ j < n, |x j| ≤ s.1) ∧ s.1 = |s.2| ∧ (s.2 = 0 ∨ ∃ j < n, s.2 = x j) := by
  induction n with
  | zero => exact ⟨fun j below => absurd below (Nat.not_lt_zero j), abs_zero.symm, Or.inl rfl⟩
  | succ n induction =>
      rw [List.range_succ, List.foldl_append, List.foldl_cons, List.foldl_nil]
      set s := (List.range n).foldl (fun s j => if s.1 < |x j| then (|x j|, x j) else s)
        ((0 : ℚ), (0 : ℚ))
      obtain ⟨bounds, magnitude, origin⟩ := induction
      dsimp only
      by_cases larger : s.1 < |x n|
      · rw [if_pos larger]
        refine ⟨?_, rfl, Or.inr ⟨n, by omega, rfl⟩⟩
        intro j below
        by_cases last : j = n
        · rw [last]
        · exact le_trans (bounds j (by omega)) (le_of_lt larger)
      · rw [if_neg larger]
        refine ⟨?_, magnitude, ?_⟩
        · intro j below
          by_cases last : j = n
          · rw [last]
            exact not_lt.mp larger
          · exact bounds j (by omega)
        · rcases origin with zero | ⟨j, below, same⟩
          · exact Or.inl zero
          · exact Or.inr ⟨j, by omega, same⟩

/-! ## Blocks on a grid -/

/-- A block whose weights are whole multiples, by codes of four bits, of a step that is a half. -/
structure OnGrid (x : Nat → ℚ) where
  d : ℚ
  half : IsF16 d
  nonzero : d ≠ 0
  q : Nat → Nat
  codes : ∀ j < 32, q j ≤ 15
  grid : ∀ j < 32, x j = d * ((q j : ℚ) - 8)

theorem derivedCode_grid {d : ℚ} (nonzero : d ≠ 0) {q : Nat} (code : q ≤ 15) :
    derivedCode (1 / d) (d * ((q : ℚ) - 8)) = q := by
  have value : d * ((q : ℚ) - 8) * (1 / d) + 17 / 2 = ((q : ℤ) : ℚ) + 1 / 2 := by
    field_simp
    push_cast
    ring
  have half : ⌊(1 / 2 : ℚ)⌋ = 0 := by
    rw [Int.floor_eq_zero_iff]
    norm_num
  have positive : ¬ ((q : ℤ) : ℚ) + 1 / 2 < 0 := by
    have natural : (0 : ℚ) ≤ ((q : ℤ) : ℚ) := by positivity
    linarith
  unfold derivedCode truncate
  dsimp only
  rw [value, if_neg positive, Int.floor_intCast_add, half]
  grind

section Blocks

variable {H : Type} {f32_to_f16 : ℚ → H} {f16_to_f32 : H → ℚ}

/-- The candidate by the code of the least magnitude is the step, up to its sign. -/
theorem refused_reaches (identity : ∀ v, IsF16 v → f16_to_f32 (f32_to_f16 v) = v) {x : Nat → ℚ}
    (block : OnGrid x) {b : BlockQ4_0 H}
    (refused : q4_0GridExact f32_to_f16 f16_to_f32 x b = none) :
    (∀ j < 32, x j = 0) ∨ block.d < 0 ∧ ∃ j < 32, block.q j = 0 := by
  obtain ⟨without, found⟩ := amin_spec x 32
  cases any : (amin x).2 with
  | false => exact Or.inl (without any)
  | true =>
      right
      obtain ⟨⟨j, below, present, least⟩, _⟩ := found any
      have code := block.codes j below
      have multiple := block.grid j below
      -- the code of the least magnitude, counted from the middle
      set m := (block.q j - 8) + (8 - block.q j) with distance
      have magnitude : |(block.q j : ℚ) - 8| = m := by
        by_cases upper : 8 ≤ block.q j
        · have same : m = block.q j - 8 := by omega
          rw [same, Nat.cast_sub upper, abs_of_nonneg]
          · rfl
          · have cast : (8 : ℚ) ≤ block.q j := by exact_mod_cast upper
            linarith
        · have same : m = 8 - block.q j := by omega
          rw [same, Nat.cast_sub (by omega), abs_of_neg]
          · push_cast
            ring
          · have cast : (block.q j : ℚ) < 8 := by exact_mod_cast (not_le.mp upper)
            linarith
      have positive : 0 < m := by
        rcases Nat.eq_zero_or_pos m with zero | positive
        · rw [zero, Nat.cast_zero, abs_eq_zero] at magnitude
          rw [multiple, magnitude, mul_zero] at present
          exact absurd rfl present
        · exact positive
      have tried : gridTry f32_to_f16 f16_to_f32 x (amin x).1 b m = none := by
        have missed := refused
        unfold q4_0GridExact at missed
        dsimp only at missed
        rw [any, if_neg (by decide), List.findSome?_eq_none_iff] at missed
        have this := missed (m - 1) (List.mem_range.mpr (by omega))
        rw [show m - 1 + 1 = m by omega] at this
        exact this
      have candidate : (amin x).1 / m = |block.d| := by
        have top : (amin x).1 = |x j| := least
        have nonzero : (m : ℚ) ≠ 0 := by exact_mod_cast positive.ne'
        rw [top, multiple, abs_mul, magnitude, mul_div_cancel_right₀ _ nonzero]
      -- a block the candidate carries would not have been refused
      have carried : ∀ k : Nat → ℤ, (∀ i < 32, -8 ≤ k i ∧ k i ≤ 7) →
          ¬ ∀ i < 32, x i = |block.d| * k i := by
        intro k codes multiples
        obtain ⟨written, accepted⟩ := gridTry_accepts identity candidate block.half.abs
          (abs_ne_zero.mpr block.nonzero) codes multiples b
        rw [tried] at accepted
        cases accepted
      rcases lt_or_gt_of_ne block.nonzero with negative | above
      · refine ⟨negative, ?_⟩
        by_contra none'
        apply carried fun i => 8 - (block.q i : ℤ)
        · intro i inside
          have small := block.codes i inside
          have reached : block.q i ≠ 0 := fun zero => none' ⟨i, inside, zero⟩
          omega
        · intro i inside
          rw [block.grid i inside, abs_of_neg negative]
          push_cast
          ring
      · exfalso
        apply carried fun i => (block.q i : ℤ) - 8
        · intro i inside
          have small := block.codes i inside
          omega
        · intro i inside
          rw [block.grid i inside, abs_of_pos above]
          push_cast
          rfl

/-- With a negative step and the code 0 in the block, that weight is the largest. -/
theorem derived_scale {x : Nat → ℚ} (block : OnGrid x) (negative : block.d < 0)
    (reached : ∃ j < 32, block.q j = 0) : (amax x).2 / (-8) = block.d := by
  obtain ⟨j, below, zero⟩ := reached
  obtain ⟨bounds, magnitude, origin⟩ := amax_spec x 32
  have largest : -8 * block.d ≤ (amax x).1 := by
    have bound := bounds j below
    rw [block.grid j below, zero, abs_of_nonneg] at bound
    · push_cast at bound
      have moved : -8 * block.d = block.d * (0 - 8) := by ring
      rw [moved]
      exact bound
    · push_cast
      nlinarith
  have size : (amax x).1 = |(amax x).2| := magnitude
  have from_ : (amax x).2 = 0 ∨ ∃ i < 32, (amax x).2 = x i := origin
  rcases from_ with none' | ⟨i, inside, same⟩
  · rw [none', abs_zero] at size
    rw [size] at largest
    linarith
  · have code := block.codes i inside
    have low : block.q i = 0 := by
      by_contra positive
      have one : (1 : ℚ) ≤ block.q i := by exact_mod_cast Nat.one_le_iff_ne_zero.mpr positive
      have top : (block.q i : ℚ) ≤ 15 := by exact_mod_cast code
      rw [size, same, block.grid i inside, abs_mul, abs_of_neg negative] at largest
      have narrow : |(block.q i : ℚ) - 8| ≤ 7 := abs_le.mpr ⟨by linarith, by linarith⟩
      nlinarith
    rw [same, block.grid i inside, low]
    push_cast
    ring

theorem quantize_block_exact (identity : ∀ v, IsF16 v → f16_to_f32 (f32_to_f16 v) = v)
    {x : Nat → ℚ} (block : OnGrid x) (b : BlockQ4_0 H) (y : Nat → ℚ) :
    ∀ j < 32, dqQ4_0 f16_to_f32 (quantizeBlockQ4_0 f32_to_f16 f16_to_f32 x b) y j = x j := by
  unfold quantizeBlockQ4_0
  cases tested : q4_0GridExact f32_to_f16 f16_to_f32 x b with
  | some written => exact grid_exact_sound tested y
  | none =>
      intro j place
      dsimp only
      unfold q4_0Derived
      dsimp only
      rcases refused_reaches identity block tested with zeros | ⟨negative, reached⟩
      · have eight : ∀ id, ∀ i < 32, derivedCode id (x i) = 8 := by
          intro id i inside
          rw [zeros i inside]
          unfold derivedCode truncate
          norm_num
          rfl
        have small : ∀ id, ∀ i < 32, derivedCode id (x i) < 16 := by
          intro id i inside
          rw [eight id i inside]
          omega
        rw [dq_stored f16_to_f32 _ _ (small _) y place, eight _ j place, zeros j place]
        norm_num
      · have scale := derived_scale block negative reached
        have codes : ∀ i < 32, derivedCode (1 / block.d) (x i) = block.q i := by
          intro i inside
          rw [block.grid i inside]
          exact derivedCode_grid block.nonzero (block.codes i inside)
        have small : ∀ i < 32, derivedCode (1 / block.d) (x i) < 16 := by
          intro i inside
          rw [codes i inside]
          exact Nat.lt_succ_of_le (block.codes i inside)
        rw [scale, if_pos block.nonzero, dq_stored f16_to_f32 _ _ small y place,
          codes j place, identity block.d block.half, block.grid j place]
        push_cast
        ring

/-- The row writes every block from its own 32 weights. -/
theorem quantize_row_block (x : Nat → ℚ) (dst : Nat → BlockQ4_0 H) {n i : Nat}
    (inside : i < n / 32) :
    quantizeRowQ4_0 f32_to_f16 f16_to_f32 x dst n i =
      quantizeBlockQ4_0 f32_to_f16 f16_to_f32 (fun j => x (i * 32 + j)) (dst i) := by
  have scattered : quantizeRowQ4_0 f32_to_f16 f16_to_f32 x dst n =
      Table.scatter (fun i => quantizeBlockQ4_0 f32_to_f16 f16_to_f32 fun j => x (i * 32 + j))
        ((List.range (n / 32)).map fun i => (i, i)) dst := by
    unfold quantizeRowQ4_0 Table.scatter
    rw [List.foldl_map]
  rw [scattered]
  apply Table.scatter_hit
  · rw [List.map_map]
    simp only [Function.comp_def, List.map_id', List.nodup_range]
  · exact List.mem_map.mpr ⟨i, List.mem_range.mpr inside, rfl⟩

end Blocks

/-- A block whose weights lie on a grid comes back as it was, whatever else the row holds, for
conversions that keep every value sixteen bits can hold and round the others anyhow. -/
theorem q4_0_repack_lossless {H : Type} (f32_to_f16 : ℚ → H) (f16_to_f32 : H → ℚ)
    (identity : ∀ v, IsF16 v → f16_to_f32 (f32_to_f16 v) = v) (x : Nat → ℚ)
    (dst : Nat → BlockQ4_0 H) (n i : Nat) (inside : i < n / 32) (d : ℚ) (half : IsF16 d)
    (nonzero : d ≠ 0) (q : Nat → Nat) (codes : ∀ j < 32, q j ≤ 15)
    (grid : ∀ j < 32, x (i * 32 + j) = d * ((q j : ℚ) - 8)) (y : Nat → ℚ) :
    ∀ j < 32, dqQ4_0 f16_to_f32 (quantizeRowQ4_0 f32_to_f16 f16_to_f32 x dst n i) y j =
      x (i * 32 + j) := by
  rw [quantize_row_block x dst inside]
  exact quantize_block_exact identity ⟨d, half, nonzero, q, codes, grid⟩ (dst i) y

/-- A block that only the derived scale carries: the step -1 and the codes 0 to 3. -/
theorem q4_0_negative_step_kept :
    (List.range 32).map (dqQ4_0 id (quantizeRowQ4_0 id id (fun j => -1 * (((j % 4 : Nat) : ℚ) - 8))
      (fun _ => ⟨0, fun _ => 0⟩) 32 0) (fun _ => 0)) =
        (List.range 32).map fun j => -1 * (((j % 4 : Nat) : ℚ) - 8) := by
  have kept := q4_0_repack_lossless id id (fun _ _ => rfl)
    (fun j => -1 * (((j % 4 : Nat) : ℚ) - 8)) (fun _ => ⟨0, fun _ => 0⟩) 32 0 (by decide) (-1)
    ⟨-1, 24, by decide, by decide, by norm_num⟩ (by norm_num) (fun j => j % 4)
    (fun j _ => by omega) (fun j _ => by rw [Nat.zero_mul, Nat.zero_add]) (fun _ => 0)
  apply List.map_congr_left
  intro j place
  have value := kept j (List.mem_range.mp place)
  rw [Nat.zero_mul, Nat.zero_add] at value
  exact value

end Writer

end GridcoreRunner.Quant
