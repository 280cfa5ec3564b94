import GridcoreRunner.Json.Accept
import Mathlib.Tactic.Linarith
import Mathlib.Tactic.Positivity
import Mathlib.Tactic.NormNum

/-!
# Doubles as numbers

Rounding to a grid keeps what lies on the grid and what lies between two of its points. A
double is an integer of 53 bits on a grid of a power of two, so `strtod` of a spelling of a
double is that double, and sets no `ERANGE`.
-/

namespace GridcoreRunner.Json

set_option autoImplicit false

/-! ## Rounding to a grid -/

/-- The integer `roundTo` counts its units with. -/
def nearestInt (x : ℚ) : ℤ :=
  if x - ⌊x⌋ < 1 / 2 then ⌊x⌋
  else if x - ⌊x⌋ > 1 / 2 then ⌊x⌋ + 1
  else if ⌊x⌋ % 2 = 0 then ⌊x⌋ else ⌊x⌋ + 1

theorem round_to_nearest (unit q : ℚ) : roundTo unit q = nearestInt (q / unit) * unit := rfl

theorem nearest_int_near (x : ℚ) : nearestInt x = ⌊x⌋ ∨ nearestInt x = ⌊x⌋ + 1 := by
  unfold nearestInt
  split_ifs
  · exact Or.inl rfl
  · exact Or.inr rfl
  · exact Or.inl rfl
  · exact Or.inr rfl

theorem nearest_int_exact (n : ℤ) : nearestInt (n : ℚ) = n := by
  unfold nearestInt
  rw [Int.floor_intCast, sub_self, if_pos (by norm_num)]

theorem nearest_int_le {x : ℚ} {n : ℤ} (above : x ≤ n) : nearestInt x ≤ n := by
  by_cases whole : x = n
  · rw [whole, nearest_int_exact]
  · have below : ⌊x⌋ < n := Int.floor_lt.mpr (lt_of_le_of_ne above whole)
    rcases nearest_int_near x with same | same <;> omega

theorem le_nearest_int {x : ℚ} {n : ℤ} (below : (n : ℚ) ≤ x) : n ≤ nearestInt x := by
  have floor : n ≤ ⌊x⌋ := Int.le_floor.mpr below
  rcases nearest_int_near x with same | same <;> omega

theorem round_to_exact {unit : ℚ} (some_ : unit ≠ 0) (n : ℤ) : roundTo unit (n * unit) = n * unit := by
  rw [round_to_nearest, mul_div_cancel_right₀ _ some_, nearest_int_exact]

/-! ## Doubles -/

/-- Up to overflow, the numbers a double can have. -/
def IsDouble (d : ℚ) : Prop := ∃ k e : ℤ, d = k * (2 : ℚ) ^ e ∧ |k| ≤ 2 ^ 53 ∧ -1074 ≤ e

/-- The double `strtod` makes of a number. -/
def nearest (q : ℚ) : ℚ := roundTo ((2 : ℚ) ^ max (lastBit q) (-1074)) q

/-- Whether `strtod` sets `ERANGE` for a number. -/
def rangeError (q : ℚ) : Bool :=
  decide ((2 : ℚ) ^ (1024 : ℕ) ≤ |nearest q|) ||
    decide (nearest q ≠ q ∧ |roundTo ((2 : ℚ) ^ lastBit q) q| < (2 : ℚ) ^ (-1022 : ℤ))

theorem strtod_value (text : Bytes) :
    strtod text = (nearest (numeralValue text), rangeError (numeralValue text)) := rfl

/-- A double in the range `parse_number` asks for. -/
def InLimits (d : ℚ) : Prop := -doubleLimit < d ∧ d < doubleLimit

theorem in_range_iff (text : Bytes) :
    inRange text = true ↔
      rangeError (numeralValue text) = false ∧ InLimits (nearest (numeralValue text)) := by
  unfold inRange InLimits
  rw [strtod_value]
  simp only [Bool.and_eq_true, Bool.not_eq_true', decide_eq_true_eq, and_assoc]

theorem two_pow_pos (e : ℤ) : (0 : ℚ) < (2 : ℚ) ^ e := zpow_pos (by norm_num) e

theorem log_lt {q : ℚ} {e : ℤ} (some_ : q ≠ 0) (small : |q| < (2 : ℚ) ^ e) :
    Int.log 2 |q| < e := (Int.lt_zpow_iff_log_lt (by norm_num) (abs_pos.mpr some_)).mp (by
      exact_mod_cast small)

theorem lt_pow_log (q : ℚ) : |q| < (2 : ℚ) ^ (Int.log 2 |q| + 1) := by
  exact_mod_cast Int.lt_zpow_succ_log_self (b := 2) (by norm_num) |q|

/-- What `strtod` returns is a double. -/
theorem nearest_double (q : ℚ) : IsDouble (nearest q) := by
  have unit := two_pow_pos (max (lastBit q) (-1074))
  refine ⟨nearestInt (q / (2 : ℚ) ^ max (lastBit q) (-1074)), max (lastBit q) (-1074), rfl, ?_,
    le_max_right _ _⟩
  have within : |q / (2 : ℚ) ^ max (lastBit q) (-1074)| ≤ ((2 ^ 53 : ℤ) : ℚ) := by
    rw [abs_div, abs_of_pos unit, div_le_iff₀ unit]
    have wide : (2 : ℚ) ^ (Int.log 2 |q| + 1) ≤
        ((2 ^ 53 : ℤ) : ℚ) * (2 : ℚ) ^ max (lastBit q) (-1074) := by
      have split : ((2 ^ 53 : ℤ) : ℚ) = (2 : ℚ) ^ (53 : ℤ) := by norm_num
      rw [split, ← zpow_add₀ (by norm_num)]
      apply zpow_le_zpow_right₀ (by norm_num)
      have least := le_max_left (lastBit q) (-1074)
      unfold lastBit at least ⊢
      omega
    exact le_of_lt (lt_of_lt_of_le (lt_pow_log q) wide)
  rw [abs_le] at within ⊢
  constructor
  · apply le_nearest_int
    push_cast at within ⊢
    exact within.1
  · exact nearest_int_le within.2

/-- A double has an integer of 53 bits, the last power apart. -/
theorem IsDouble.short {d : ℚ} (double : IsDouble d) :
    ∃ k e : ℤ, d = k * (2 : ℚ) ^ e ∧ |k| < 2 ^ 53 ∧ -1074 ≤ e := by
  obtain ⟨k, e, value, bits, least⟩ := double
  by_cases short : |k| < 2 ^ 53
  · exact ⟨k, e, value, short, least⟩
  · have full : |k| = 2 ^ 53 := le_antisymm bits (not_lt.mp short)
    have next : (2 : ℚ) ^ (e + 1) = (2 : ℚ) ^ e * 2 := zpow_add_one₀ (by norm_num) e
    rcases (abs_eq (by norm_num)).mp full with same | same
    · refine ⟨2 ^ 52, e + 1, ?_, by norm_num, by omega⟩
      rw [value, same, next]
      push_cast
      ring
    · refine ⟨-2 ^ 52, e + 1, ?_, by norm_num, by omega⟩
      rw [value, same, next]
      push_cast
      ring

/-- A double is nearest to itself. -/
theorem nearest_of_double {d : ℚ} (double : IsDouble d) : nearest d = d := by
  obtain ⟨k, e, value, bits, least⟩ := double.short
  by_cases zero : d = 0
  · rw [zero, nearest]
    have none' := round_to_exact (two_pow_pos (max (lastBit 0) (-1074))).ne' 0
    rw [Int.cast_zero, zero_mul] at none'
    exact none'
  have small : |d| < (2 : ℚ) ^ (e + 53) := by
    rw [value, abs_mul, abs_of_pos (two_pow_pos e), zpow_add₀ (by norm_num), mul_comm]
    apply mul_lt_mul_of_pos_left _ (two_pow_pos e)
    have cast : |(k : ℚ)| = ((|k| : ℤ) : ℚ) := (Int.cast_abs).symm
    rw [cast]
    exact_mod_cast bits
  have log := log_lt zero small
  have fine : max (lastBit d) (-1074) ≤ e := by
    apply max_le
    · unfold lastBit
      omega
    · exact least
  obtain ⟨n, shift⟩ := Int.le.dest fine
  have onGrid : d = ((k * 2 ^ n : ℤ) : ℚ) * (2 : ℚ) ^ max (lastBit d) (-1074) := by
    conv_lhs => rw [value, ← shift, zpow_add₀ (by norm_num), zpow_natCast]
    push_cast
    ring
  have exact_ := round_to_exact (two_pow_pos (max (lastBit d) (-1074))).ne' (k * 2 ^ n)
  rw [← onGrid] at exact_
  exact exact_

/-- `strtod` of a spelling of a double in the limits is that double. -/
theorem strtod_double {d : ℚ} {text : Bytes} (double : IsDouble d) (limits : InLimits d)
    (value : numeralValue text = d) : (strtod text).1 = d ∧ inRange text = true := by
  have same := nearest_of_double double
  have finite : |d| < (2 : ℚ) ^ (1024 : ℕ) := by
    have limit : doubleLimit < (2 : ℚ) ^ (1024 : ℕ) := by
      have sum : 1024 = 52 + 972 := rfl
      rw [sum, pow_add, doubleLimit]
      exact mul_lt_mul_of_pos_right (by norm_num) (by positivity)
    exact lt_trans (abs_lt.mpr limits) limit
  refine ⟨by rw [strtod_value, value, same], ?_⟩
  rw [in_range_iff, value, same]
  refine ⟨?_, limits⟩
  unfold rangeError
  rw [same]
  simp [finite]

end GridcoreRunner.Json
