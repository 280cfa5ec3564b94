import Mathlib.Data.Nat.Bitwise
import Mathlib.Tactic.Common
import Mathlib.Tactic.IntervalCases
import Mathlib.Tactic.Ring

/-!
# Fields of a few bits

Unsigned machine words as numbers. Numbers that are shifted to places of their own and
put together by `or` add up, and are found again by a shift and a mask. A word is the
lanes it is made of, and masked shifts of the word are shifts of the lanes.
-/

namespace GridcoreRunner.Fields

set_option autoImplicit false

/-- The cast to a byte. -/
def u8 (n : Nat) : Nat := n % 256

theorem u8_small {n : Nat} (small : n < 256) : u8 n = n := Nat.mod_eq_of_lt small

/-- Above the field that is there already nothing overlaps. -/
theorem or_shift {a k : Nat} (below : a < 2 ^ k) (b : Nat) : a ||| b <<< k = a + b * 2 ^ k := by
  rw [Nat.or_comm, ← Nat.shiftLeft_add_eq_or_of_lt below, Nat.shiftLeft_eq, Nat.add_comm]

theorem mask_two (n : Nat) : n &&& 3 = n % 4 := Nat.and_two_pow_sub_one_eq_mod n 2
theorem mask_four (n : Nat) : n &&& 15 = n % 16 := Nat.and_two_pow_sub_one_eq_mod n 4
theorem mask_six (n : Nat) : n &&& 63 = n % 64 := Nat.and_two_pow_sub_one_eq_mod n 6

/-- A field that is stored over the one below it. -/
theorem store_field {a b k : Nat} (below : a < 2 ^ k) (fits : a + b * 2 ^ k < 256) :
    u8 (a ||| u8 (b <<< k)) = a + b * 2 ^ k := by
  have field : u8 (b <<< k) = b <<< k := by
    rw [Nat.shiftLeft_eq]
    exact u8_small (by omega)
  rw [field, or_shift below]
  exact u8_small fits

/-- Two nibbles of a byte. -/
theorem nibbles {a b : Nat} (lowSmall : a < 16) (highSmall : b < 16) :
    u8 (a ||| b <<< 4) = a + b * 16 := by
  rw [or_shift (show a < 2 ^ 4 from lowSmall)]
  exact u8_small (by omega)

/-- Four fields of two bits of a byte. -/
theorem pairs {a b c d : Nat} (first : a < 4) (second : b < 4) (third : c < 4) (fourth : d < 4) :
    u8 (a ||| b <<< 2 ||| c <<< 4 ||| d <<< 6) = a + b * 4 + c * 16 + d * 64 := by
  have two : a ||| b <<< 2 = a + b * 4 := or_shift (show a < 2 ^ 2 from first) b
  have three : a + b * 4 ||| c <<< 4 = a + b * 4 + c * 16 :=
    or_shift (show a + b * 4 < 2 ^ 4 by omega) c
  have four : a + b * 4 + c * 16 ||| d <<< 6 = a + b * 4 + c * 16 + d * 64 :=
    or_shift (show a + b * 4 + c * 16 < 2 ^ 6 by omega) d
  rw [two, three, four]
  exact u8_small (by omega)

/-- The four fields stored one after the other. -/
theorem pairs_stored {a b c d : Nat} (first : a < 4) (second : b < 4) (third : c < 4)
    (fourth : d < 4) :
    u8 (u8 (u8 (u8 (0 ||| u8 (a <<< 0)) ||| u8 (b <<< 2)) ||| u8 (c <<< 4)) ||| u8 (d <<< 6)) =
      a + b * 4 + c * 16 + d * 64 := by
  rw [store_field (show 0 < 2 ^ 0 by omega) (by omega),
    store_field (show 0 + a * 2 ^ 0 < 2 ^ 2 by omega) (by omega),
    store_field (show 0 + a * 2 ^ 0 + b * 2 ^ 2 < 2 ^ 4 by omega) (by omega),
    store_field (show 0 + a * 2 ^ 0 + b * 2 ^ 2 + c * 2 ^ 4 < 2 ^ 6 by omega) (by omega)]
  omega

/-! ## Single bits -/

theorem and_bit (n k : Nat) : n &&& 2 ^ k = 0 ↔ n.testBit k = false := by
  rw [Nat.and_two_pow]
  cases n.testBit k with
  | false => simp only [Bool.toNat_false, Nat.zero_mul]
  | true =>
      have positive : 0 < 2 ^ k := Nat.two_pow_pos k
      simp only [Bool.toNat_true, Nat.one_mul, Bool.true_eq_false, iff_false]
      omega

theorem u8_bit (n t : Nat) : (u8 n).testBit t = (decide (t < 8) && n.testBit t) :=
  Nat.testBit_mod_two_pow n 8 t

theorem or_bit (n k t : Nat) : (n ||| 2 ^ k).testBit t = (n.testBit t || decide (k = t)) := by
  rw [Nat.testBit_or, Nat.testBit_two_pow]

/-! ## Lanes -/

/-- A word of four bytes, the first of them lowest. -/
def word (b : Nat → Nat) : Nat := b 0 + b 1 * 2 ^ 8 + b 2 * 2 ^ 16 + b 3 * 2 ^ 24

/-- A byte of a word. -/
def lane (w k : Nat) : Nat := w / 2 ^ (8 * k) % 2 ^ 8

theorem lane_word {b : Nat → Nat} (bytes : ∀ k < 4, b k < 256) {k : Nat} (within : k < 4) :
    lane (word b) k = b k := by
  have zero := bytes 0 (by omega)
  have one := bytes 1 (by omega)
  have two := bytes 2 (by omega)
  have three := bytes 3 (by omega)
  unfold lane word
  interval_cases k <;> omega

theorem test_lane (w k i : Nat) :
    (lane w k).testBit i = (decide (i < 8) && w.testBit (8 * k + i)) := by
  unfold lane
  rw [Nat.testBit_mod_two_pow, Nat.testBit_div_two_pow, Nat.add_comm i (8 * k)]

/-- A mask that repeats in every lane, over a shift to the right by less than a lane. -/
theorem lane_masked {mask lanes : Nat} {shift k : Nat} (within : k < 4)
    (repeats : ∀ j < 4, ∀ i < 8, lanes.testBit (8 * j + i) = mask.testBit i)
    (stays : ∀ i, mask.testBit i = true → i + shift < 8) (w : Nat) :
    lane (w >>> shift &&& lanes) k = lane w k >>> shift &&& mask := by
  apply Nat.eq_of_testBit_eq
  intro i
  rw [test_lane, Nat.testBit_and, Nat.testBit_and, Nat.testBit_shiftRight, Nat.testBit_shiftRight,
    test_lane]
  by_cases set : mask.testBit i = true
  · have small := stays i set
    have low : i < 8 := by omega
    rw [repeats k within i low, set]
    simp only [low, show shift + i < 8 by omega, decide_true, Bool.true_and, Bool.and_true]
    congr 1
    omega
  · have clear : mask.testBit i = false := Bool.eq_false_iff.mpr set
    rw [clear, Bool.and_false]
    by_cases low : i < 8
    · rw [repeats k within i low, clear, Bool.and_false, Bool.and_false]
    · simp only [low, decide_false, Bool.false_and]

/-- The bits at the top of a lane that leaves room are clear. -/
theorem top_clear {room w t : Nat} (lanes : ∀ j, lane w j < 2 ^ room) (top : room ≤ t % 8) :
    w.testBit t = false := by
  have bit := test_lane w (t / 8) (t % 8)
  rw [Nat.div_add_mod t 8, decide_eq_true (Nat.mod_lt t (by omega)), Bool.true_and] at bit
  rw [← bit]
  apply Nat.testBit_lt_two_pow
  exact Nat.lt_of_lt_of_le (lanes (t / 8)) (Nat.pow_le_pow_right (by omega) top)

/-- A shift to the left of lanes that leave room for it. -/
theorem lane_shift {shift w k : Nat} (small : shift ≤ 8)
    (room : ∀ j, lane w j < 2 ^ (8 - shift)) :
    lane (w <<< shift) k = lane w k <<< shift := by
  apply Nat.eq_of_testBit_eq
  intro i
  rw [test_lane, Nat.testBit_shiftLeft, Nat.testBit_shiftLeft, test_lane]
  by_cases reached : shift ≤ i
  · have place : 8 * k + i - shift = 8 * k + (i - shift) := by omega
    rw [place, decide_eq_true reached, decide_eq_true (show shift ≤ 8 * k + i by omega),
      Bool.true_and, Bool.true_and]
    by_cases inside : i < 8
    · rw [decide_eq_true inside, decide_eq_true (show i - shift < 8 by omega)]
    · rw [decide_eq_false inside, Bool.false_and]
      by_cases below : i - shift < 8
      · rw [top_clear room (show 8 - shift ≤ (8 * k + (i - shift)) % 8 by omega), Bool.and_false]
      · rw [decide_eq_false below, Bool.false_and]
  · rw [decide_eq_false reached, Bool.false_and]
    by_cases inside : shift ≤ 8 * k + i
    · rw [top_clear room (show 8 - shift ≤ (8 * k + i - shift) % 8 by omega), Bool.and_false,
        Bool.and_false]
    · rw [decide_eq_false inside, Bool.false_and, Bool.and_false]

theorem lane_past {w k : Nat} (word : w < 2 ^ 32) (past : 4 ≤ k) : lane w k = 0 := by
  have above : w < 2 ^ (8 * k) :=
    Nat.lt_of_lt_of_le word (Nat.pow_le_pow_right (by omega) (by omega))
  unfold lane
  rw [Nat.div_eq_of_lt above, Nat.zero_mod]

theorem lane_or (v w k : Nat) : lane (v ||| w) k = lane v k ||| lane w k := by
  apply Nat.eq_of_testBit_eq
  intro i
  rw [test_lane, Nat.testBit_or, Nat.testBit_or, test_lane, test_lane, Bool.and_or_distrib_left]

/-- The cast to a word. -/
def u32 (n : Nat) : Nat := n % 2 ^ 32

theorem lane_u32 (w : Nat) {k : Nat} (within : k < 4) : lane (u32 w) k = lane w k := by
  apply Nat.eq_of_testBit_eq
  intro i
  unfold u32
  rw [test_lane, test_lane, Nat.testBit_mod_two_pow]
  by_cases inside : i < 8
  · rw [decide_eq_true (show 8 * k + i < 32 by omega), Bool.true_and]
  · rw [decide_eq_false inside, Bool.false_and, Bool.false_and]

end GridcoreRunner.Fields
