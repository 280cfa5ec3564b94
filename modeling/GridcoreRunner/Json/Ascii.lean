import Mathlib.Data.List.Basic
import Mathlib.Tactic.Common

/-!
# The bytes of JSON text

Names for the ASCII bytes both JSON machines test for, and the byte classes they
share.
-/

namespace GridcoreRunner.Json

set_option autoImplicit false

abbrev Bytes := List UInt8

scoped instance lawfulBytes : LawfulBEq Bytes := inferInstance

abbrev quote : UInt8 := 0x22
abbrev backslash : UInt8 := 0x5c
abbrev lbrace : UInt8 := 0x7b
abbrev rbrace : UInt8 := 0x7d
abbrev lbracket : UInt8 := 0x5b
abbrev rbracket : UInt8 := 0x5d
abbrev comma : UInt8 := 0x2c
abbrev colon : UInt8 := 0x3a
abbrev plus : UInt8 := 0x2b
abbrev minus : UInt8 := 0x2d
abbrev dot : UInt8 := 0x2e
abbrev slash : UInt8 := 0x2f
abbrev zero : UInt8 := 0x30
abbrev one : UInt8 := 0x31
abbrev underscore : UInt8 := 0x5f

-- the letters, lower case unless the name says otherwise
abbrev letterB : UInt8 := 0x62
abbrev letterE : UInt8 := 0x65
abbrev letterF : UInt8 := 0x66
abbrev letterN : UInt8 := 0x6e
abbrev letterR : UInt8 := 0x72
abbrev letterT : UInt8 := 0x74
abbrev letterU : UInt8 := 0x75
abbrev capitalC : UInt8 := 0x43
abbrev capitalD : UInt8 := 0x44
abbrev capitalE : UInt8 := 0x45

def trueText : Bytes := [letterT, letterR, letterU, letterE]
def falseText : Bytes := [letterF, 0x61, 0x6c, 0x73, letterE]
def nullText : Bytes := [letterN, letterU, 0x6c, 0x6c]

/-- `' '`, `'\t'`, `'\n'`, `'\r'`. -/
def isWs (c : UInt8) : Bool := c == 0x20 || c == 0x09 || c == 0x0a || c == 0x0d

def isDigit (c : UInt8) : Bool := 0x30 ≤ c && c ≤ 0x39

/-- The value of one hex digit. -/
def hexDigit (c : UInt8) : Option Nat :=
  if 0x30 ≤ c ∧ c ≤ 0x39 then some (c.toNat - 0x30)
  else if 0x61 ≤ c ∧ c ≤ 0x66 then some (c.toNat - 0x61 + 10)
  else if 0x41 ≤ c ∧ c ≤ 0x46 then some (c.toNat - 0x41 + 10)
  else none

theorem hex_digit_lt {c : UInt8} {d : Nat} (read : hexDigit c = some d) : d < 16 := by
  unfold hexDigit at read
  split_ifs at read with digit lower upper
  all_goals
    cases read
    simp only [UInt8.le_iff_toNat_le, UInt8.reduceToNat] at *
    omega

theorem hex_digit_ascii {c : UInt8} {d : Nat} (read : hexDigit c = some d) : c < 0x80 := by
  unfold hexDigit at read
  split_ifs at read with digit lower upper <;> grind

end GridcoreRunner.Json
