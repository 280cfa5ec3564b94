import Mathlib.Data.Nat.Bitwise
import Mathlib.Tactic.Common

/-!
# The numbers and types of a GGUF file

The value types of the metadata, the block table of the tensor types, the checked
arithmetic and the reading of float metadata as whole numbers by their bits.
-/

namespace GridcoreRunner.Gguf

set_option autoImplicit false

abbrev Bytes := List UInt8

def uint32Max : Nat := 2 ^ 32 - 1

def uint64Max : Nat := 2 ^ 64 - 1

def intMax : Nat := 2 ^ 31 - 1

def checkedU64Add (a b : Nat) : Option Nat := if b > uint64Max - a then none else some (a + b)

def checkedU64Mul (a b : Nat) : Option Nat :=
  if a ≠ 0 ∧ b > uint64Max / a then none else some (a * b)

theorem checked_add_some {a b sum : Nat} (bound : a ≤ uint64Max) :
    checkedU64Add a b = some sum ↔ sum = a + b ∧ a + b ≤ uint64Max := by
  unfold checkedU64Add
  split_ifs with beyond
  · constructor
    · intro absurd
      cases absurd
    · intro fits
      omega
  · constructor
    · intro same
      cases same
      omega
    · intro fits
      rw [fits.1]

theorem checked_mul_some {a b product : Nat} :
    checkedU64Mul a b = some product ↔ product = a * b ∧ a * b ≤ uint64Max := by
  unfold checkedU64Mul
  split_ifs with beyond
  · constructor
    · intro absurd
      cases absurd
    · intro fits
      have small : b ≤ uint64Max / a := by
        rw [Nat.le_div_iff_mul_le (Nat.pos_of_ne_zero beyond.1), Nat.mul_comm]
        exact fits.2
      omega
  · constructor
    · intro same
      cases same
      refine ⟨rfl, ?_⟩
      by_cases zero : a = 0
      · rw [zero, Nat.zero_mul]
        exact Nat.zero_le _
      · have small : b ≤ uint64Max / a := by
          by_contra large
          exact beyond ⟨zero, by omega⟩
        rw [Nat.le_div_iff_mul_le (Nat.pos_of_ne_zero zero)] at small
        rw [Nat.mul_comm]
        exact small
    · intro fits
      rw [fits.1]

/-- A little-endian number. -/
def leNat : Bytes → Nat
  | [] => 0
  | b :: rest => b.toNat + 256 * leNat rest

theorem le_nat_lt (bytes : Bytes) : leNat bytes < 256 ^ bytes.length := by
  induction bytes with
  | nil => simp [leNat]
  | cons b rest induction =>
      have byte := b.toNat_lt
      rw [leNat, List.length_cons, Nat.pow_succ]
      omega

/-- A number of this many bits as two's complement. -/
def toSigned (bits n : Nat) : Int := if n < 2 ^ (bits - 1) then n else (n : Int) - 2 ^ bits

/-- The string `strcmp` sees: what stands before the first NUL. -/
def cstr (s : Bytes) : Bytes := s.takeWhile (fun b => b != 0)

/-! ## Rounding up to an alignment -/

def pow2 (align : Nat) : Bool := align != 0 && align &&& (align - 1) == 0

theorem pow2_iff {align : Nat} : pow2 align = true ↔ ∃ k, align = 2 ^ k := by
  unfold pow2
  rw [Bool.and_eq_true, bne_iff_ne, beq_iff_eq]
  exact Nat.ne_zero_and_sub_one_eq_zero_iff_isPowerOfTwo

/-- `n & ~(align - 1)`. -/
def roundDown (align n : Nat) : Nat := n &&& (uint64Max ^^^ (align - 1))

theorem round_down_eq {align n : Nat} (power : pow2 align = true) (bound : n ≤ uint64Max) :
    roundDown align n = n / align * align := by
  rcases pow2_iff.mp power with ⟨k, rfl⟩
  unfold roundDown
  apply Nat.eq_of_testBit_eq
  intro i
  have all : uint64Max.testBit i = decide (i < 64) := by
    exact Nat.testBit_two_pow_sub_one 64 i
  have mask : (2 ^ k - 1).testBit i = decide (i < k) := Nat.testBit_two_pow_sub_one k i
  rw [Nat.testBit_and, Nat.testBit_xor, all, mask, Nat.testBit_mul_two_pow,
    Nat.testBit_div_two_pow]
  by_cases high : i < 64
  · by_cases low : i < k
    · simp [high, low]
    · have back : i - k + k = i := by omega
      simp [high, low, back, Nat.not_lt.mp low]
  · have small : n < 2 ^ i := by
      apply Nat.lt_of_le_of_lt bound
      apply Nat.lt_of_lt_of_le (m := 2 ^ 64)
      · decide
      · exact Nat.pow_le_pow_right (by decide) (by omega)
    have zero : n.testBit i = false := Nat.testBit_lt_two_pow small
    by_cases low : k ≤ i
    · have back : i - k + k = i := by omega
      simp [zero, low, back]
    · simp [zero, low]

/-! ## Value types of the metadata -/

inductive ValType where
  | u8 | i8 | u16 | i16 | u32 | i32 | f32 | bool | str | arr | u64 | i64 | f64
  deriving Repr, DecidableEq

def ValType.ofCode : Nat → Option ValType
  | 0 => some .u8
  | 1 => some .i8
  | 2 => some .u16
  | 3 => some .i16
  | 4 => some .u32
  | 5 => some .i32
  | 6 => some .f32
  | 7 => some .bool
  | 8 => some .str
  | 9 => some .arr
  | 10 => some .u64
  | 11 => some .i64
  | 12 => some .f64
  | _ => none

def scalarSize : ValType → Nat
  | .u8 | .i8 | .bool => 1
  | .u16 | .i16 => 2
  | .u32 | .i32 | .f32 => 4
  | .u64 | .i64 | .f64 => 8
  | .str | .arr => 0

/-! ## Tensor types -/

inductive GgmlType where
  | f32 | f16 | q4_0 | q4_1 | q5_0 | q5_1 | q8_0 | q2_K | q3_K | q4_K | q5_K | q6_K
  | iq2_xxs | iq2_xs | iq3_xxs | iq1_s | iq4_nl | iq3_s | iq2_s | iq4_xs | iq1_m | bf16
  | mxfp4
  deriving Repr, DecidableEq

def GgmlType.ofCode : Nat → Option GgmlType
  | 0 => some .f32
  | 1 => some .f16
  | 2 => some .q4_0
  | 3 => some .q4_1
  | 6 => some .q5_0
  | 7 => some .q5_1
  | 8 => some .q8_0
  | 10 => some .q2_K
  | 11 => some .q3_K
  | 12 => some .q4_K
  | 13 => some .q5_K
  | 14 => some .q6_K
  | 16 => some .iq2_xxs
  | 17 => some .iq2_xs
  | 18 => some .iq3_xxs
  | 19 => some .iq1_s
  | 20 => some .iq4_nl
  | 21 => some .iq3_s
  | 22 => some .iq2_s
  | 23 => some .iq4_xs
  | 29 => some .iq1_m
  | 30 => some .bf16
  | 39 => some .mxfp4
  | _ => none

/-- Elements a block: `QK` is 32 and `QK_K` is 256. -/
def GgmlType.blockSize : GgmlType → Nat
  | .f32 | .f16 | .bf16 => 1
  | .q4_0 | .q4_1 | .q5_0 | .q5_1 | .q8_0 | .iq4_nl | .mxfp4 => 32
  | .q4_K | .q5_K | .q6_K | .q2_K | .q3_K | .iq4_xs | .iq2_xxs | .iq2_xs | .iq2_s | .iq3_xxs
  | .iq3_s | .iq1_s | .iq1_m => 256

/-- Bytes a block. -/
def GgmlType.typeSize : GgmlType → Nat
  | .f32 => 4
  | .f16 => 2
  | .q4_0 => 18
  | .q4_1 => 20
  | .q5_0 => 22
  | .q5_1 => 24
  | .q8_0 => 34
  | .q2_K => 84
  | .q3_K => 110
  | .q4_K => 144
  | .q5_K => 176
  | .q6_K => 210
  | .iq2_xxs => 66
  | .iq2_xs => 74
  | .iq3_xxs => 98
  | .iq1_s => 50
  | .iq4_nl => 18
  | .iq3_s => 110
  | .iq2_s => 82
  | .iq4_xs => 136
  | .iq1_m => 56
  | .bf16 => 2
  | .mxfp4 => 17

def ggmlBlockSize (type : Nat) : Nat :=
  match GgmlType.ofCode type with
  | some t => t.blockSize
  | none => 1

def ggmlTypeSize (type : Nat) : Nat :=
  match GgmlType.ofCode type with
  | some t => t.typeSize
  | none => 1

def ggmlTypeSupported (type : Nat) : Bool := (GgmlType.ofCode type).isSome

/-! ## Floats that are whole numbers -/

/-- `mantissa * 2 ^ exponent`, if that is a whole number. -/
def wholeOf (mantissa : Nat) (exponent : Int) : Option Nat :=
  if 0 ≤ exponent then some (mantissa * 2 ^ exponent.toNat)
  else if 2 ^ (-exponent).toNat ∣ mantissa then some (mantissa / 2 ^ (-exponent).toNat)
  else none

/-- A finite, non-negative whole number in the bits of a float with so many exponent and
fraction bits. -/
def wholeFloat (exponentBits fractionBits raw : Nat) : Option Nat :=
  let fraction := raw % 2 ^ fractionBits
  let exponent := raw / 2 ^ fractionBits % 2 ^ exponentBits
  let bias : Int := 2 ^ (exponentBits - 1) - 1 + fractionBits
  if exponent = 2 ^ exponentBits - 1 then none
  else if raw / 2 ^ (exponentBits + fractionBits) ≠ 0 then none
  else if exponent = 0 then wholeOf fraction (1 - bias)
  else wholeOf (2 ^ fractionBits + fraction) (exponent - bias)

example : wholeFloat 8 23 0x42000000 = some 32 := by decide
example : wholeFloat 11 52 0x3ff8000000000000 = none := by decide

end GridcoreRunner.Gguf
