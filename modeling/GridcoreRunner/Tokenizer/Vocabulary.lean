import Mathlib.Data.Prod.Lex
import GridcoreRunner.Json.Parser

/-!
# Tokenizer data

The vocabulary, the score and merge tables, and the UTF-8 helpers of `tokenizer.c`.
A hash map answers with the first entry of its key, so a table is the list that
was put into it. A 32-bit float is an extended rational, `none` for a NaN.
-/

namespace GridcoreRunner.Tok

set_option autoImplicit false

abbrev Bytes := List UInt8

/-! ## Floats -/

/-- A 32-bit float that is not a NaN. -/
inductive Real32
  | negInf
  | finite (q : ℚ)
  | posInf
deriving DecidableEq

/-- The place of a float on the line. -/
def Real32.place : Real32 → Lex (ℤ × ℚ)
  | .negInf => toLex (-1, 0)
  | .finite q => toLex (0, q)
  | .posInf => toLex (1, 0)

theorem place_injective : Function.Injective Real32.place := by
  intro a b same
  cases a <;> cases b <;> simp_all [Real32.place]

instance : LinearOrder Real32 := LinearOrder.lift' Real32.place place_injective

theorem real_lt (a b : Real32) : a < b ↔ a.place < b.place := Iff.rfl

def Real32.neg : Real32 → Real32
  | .negInf => .posInf
  | .finite q => .finite (-q)
  | .posInf => .negInf

abbrev Float32 := Option Real32

/-- `a > b`; false when one is a NaN. -/
def gt : Float32 → Float32 → Bool
  | some a, some b => decide (b < a)
  | _, _ => false

/-- `(float)rank`, the nearest of the numbers of 24 bits. -/
def ofRank (rank : Nat) : Real32 :=
  .finite (Json.roundTo ((2 : ℚ) ^ (Nat.log 2 rank - 23)) rank)

theorem neg_lt_neg (a b : Real32) : a.neg < b.neg ↔ b < a := by
  cases a <;> cases b <;> simp [real_lt, Real32.place, Real32.neg, Prod.Lex.toLex_lt_toLex]

theorem round_to_one (n : Nat) : Json.roundTo 1 (n : ℚ) = n := by
  have floor : ⌊((n : ℚ) / 1)⌋ = (n : ℤ) := by simp
  simp only [Json.roundTo, floor]
  norm_num

theorem of_rank_exact {rank : Nat} (small : rank < 2 ^ 24) :
    ofRank rank = .finite rank := by
  have bits : Nat.log 2 rank ≤ 23 := by
    have below := Nat.log_lt_of_lt_pow' (b := 2) (show (24 : ℕ) ≠ 0 by decide) small
    omega
  have unit : Nat.log 2 rank - 23 = 0 := by omega
  rw [ofRank, unit, pow_zero, round_to_one]

/-! ## UTF-8 -/

/-- `u8_len`. -/
def u8Len (c : UInt8) : Nat :=
  if c < 0x80 then 1
  else if c &&& 0xE0 = 0xC0 then 2
  else if c &&& 0xF0 = 0xE0 then 3
  else if c &&& 0xF8 = 0xF0 then 4
  else 1

/-- `u8_decode` of the bytes of one character. -/
def u8Decode : Bytes → Nat
  | [a, b] => (a &&& 0x1F).toNat <<< 6 ||| (b &&& 0x3F).toNat
  | [a, b, c] => (a &&& 0x0F).toNat <<< 12 ||| (b &&& 0x3F).toNat <<< 6 ||| (c &&& 0x3F).toNat
  | [a, b, c, d] =>
      (a &&& 0x07).toNat <<< 18 ||| (b &&& 0x3F).toNat <<< 12 ||| (c &&& 0x3F).toNat <<< 6 |||
        (d &&& 0x3F).toNat
  | a :: _ => a.toNat
  | [] => 0

/-- `u8_encode`. -/
def u8Encode (cp : Nat) : Bytes := Json.u8Emit cp

theorem u8_len_pos (c : UInt8) : 0 < u8Len c := by
  unfold u8Len
  split_ifs <;> decide

theorem u8_len_le (c : UInt8) : u8Len c ≤ 4 := by
  unfold u8Len
  split_ifs <;> decide

/-! ## The tokenizer -/

/-- `TOK_SPM`, `TOK_BPE`, `TOK_BPE_SPM`. -/
inductive Model
  | spm | bpe | bpeSpm
deriving DecidableEq, Repr

/-- `TOK_PRE_*`. -/
inductive Pre
  | gpt2 | llama3 | qwen2 | smollm | afmoe | tekken | llama4
deriving DecidableEq, Repr

/-- `TT_*`. -/
inductive TokenType
  | normal | unknown | control | userDefined | unused | byte
deriving DecidableEq, Repr

/-- `tokenizer`, the fields that encoding and decoding text read. -/
structure Tokenizer where
  model : Model
  pre : Pre
  tokens : List Bytes
  scores : Option (List Float32)
  ttype : List TokenType
  unkId : Option Nat
  addSpacePrefix : Bool
  merges : List Bytes

/-- `hmap_get`. -/
def hmapGet (table : List Bytes) (key : Bytes) : Option Nat := table.findIdx? (· == key)

theorem hmap_get_lt {table : List Bytes} {key : Bytes} {id : Nat}
    (found : hmapGet table key = some id) : id < table.length := by
  exact (List.findIdx?_eq_some_iff_getElem.mp found).1

theorem hmap_get_key {table : List Bytes} {key : Bytes} {id : Nat}
    (found : hmapGet table key = some id) : table[id]? = some key := by
  rcases List.findIdx?_eq_some_iff_getElem.mp found with ⟨below, same, _⟩
  rw [List.getElem?_eq_getElem below]
  simpa using same

end GridcoreRunner.Tok
