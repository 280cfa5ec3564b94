import GridcoreRunner.Base64

/-!
# Embeddings in base 64

`sb_emb_b64` writes the floats of an embedding, byte for byte and the low bytes first.
-/

namespace GridcoreRunner.Embeddings

set_option autoImplicit false

open Base64

/-- `T` -/
def table : List UInt8 :=
  "ABCDEFGHIJKLMNOPQRSTUVWXYZabcdefghijklmnopqrstuvwxyz0123456789+/".toList.map fun c =>
    c.toNat.toUInt8

def letter (v : Nat) : UInt8 := table.getD v 0

/-- `=` -/
def fill : UInt8 := 0x3d

/-- `emb_byte`: floats are their bits. -/
def embByte (v : Nat → UInt32) (i : Nat) : UInt8 :=
  (v (i >>> 2) >>> (8 * (i &&& 3)).toUInt32).toUInt8

/-- The four letters of a round; the bytes are promoted to `int`. -/
def quad (v : Nat → UInt32) (nb i : Nat) : List UInt8 :=
  let b0 := (embByte v i).toNat
  let b1 := if i + 1 < nb then (embByte v (i + 1)).toNat else 0
  let b2 := if i + 2 < nb then (embByte v (i + 2)).toNat else 0
  [letter (b0 >>> 2),
    letter (((b0 &&& 0x03) <<< 4) ||| (b1 >>> 4)),
    if i + 1 < nb then letter (((b1 &&& 0x0F) <<< 2) ||| (b2 >>> 6)) else fill,
    if i + 2 < nb then letter (b2 &&& 0x3F) else fill]

/-- The loop of `sb_emb_b64`. -/
def quads (v : Nat → UInt32) (nb : Nat) : Nat → Nat → List UInt8
  | 0, _ => []
  | rounds + 1, i => if i < nb then quad v nb i ++ quads v nb rounds (i + 3) else []

def sbEmbB64 (v : Nat → UInt32) (n : Nat) : List UInt8 := quads v (n * 4) (n * 4) 0

/-! ## What it writes -/

/-- The alphabet of `T`. -/
def standard : Alphabet where
  letter := letter
  value c := table.findIdx? (· == c)
  fill := fill
  read := by decide
  apart := by decide

/-- The bytes of the vector from the `i`-th on. -/
def bytesFrom (v : Nat → UInt32) (nb i : Nat) : List UInt8 :=
  (List.range (nb - i)).map fun k => embByte v (i + k)

theorem split_bits (a b c : UInt8) :
    split a b c = (a.toNat >>> 2, ((a.toNat &&& 0x03) <<< 4) ||| (b.toNat >>> 4),
      ((b.toNat &&& 0x0F) <<< 2) ||| (c.toNat >>> 6), c.toNat &&& 0x3F) := by
  have second := b.toNat_lt
  have third := c.toNat_lt
  have low2 : a.toNat &&& 0x03 = a.toNat % 4 := Nat.and_two_pow_sub_one_eq_mod a.toNat 2
  have low4 : b.toNat &&& 0x0F = b.toNat % 16 := Nat.and_two_pow_sub_one_eq_mod b.toNat 4
  have low6 : c.toNat &&& 0x3F = c.toNat % 64 := Nat.and_two_pow_sub_one_eq_mod c.toNat 6
  unfold split
  rw [low2, low4, low6, ← Nat.shiftLeft_add_eq_or_of_lt, ← Nat.shiftLeft_add_eq_or_of_lt]
  · simp only [Nat.shiftRight_eq_div_pow, Nat.shiftLeft_eq]
  · rw [Nat.shiftRight_eq_div_pow]
    omega
  · rw [Nat.shiftRight_eq_div_pow]
    omega

theorem bytes_cons (v : Nat → UInt32) {nb i : Nat} (inside : i < nb) :
    bytesFrom v nb i = embByte v i :: bytesFrom v nb (i + 1) := by
  unfold bytesFrom
  obtain ⟨k, length⟩ : ∃ k, nb - i = k + 1 := ⟨nb - i - 1, by omega⟩
  have rest : nb - (i + 1) = k := by omega
  rw [length, rest, List.range_succ_eq_map, List.map_cons, List.map_map]
  congr 1
  apply List.map_congr_left
  intro j _
  exact congrArg (embByte v) (by omega : i + (j + 1) = i + 1 + j)

theorem bytes_nil (v : Nat → UInt32) {nb i : Nat} (over' : nb ≤ i) : bytesFrom v nb i = [] := by
  unfold bytesFrom
  rw [Nat.sub_eq_zero_of_le over']
  rfl

/-- The loop writes the standard encoding of the bytes that are left. -/
theorem quads_encode (v : Nat → UInt32) (nb : Nat) {rounds i : Nat} (enough : nb ≤ i + rounds) :
    quads v nb rounds i = encode standard (bytesFrom v nb i) := by
  induction rounds generalizing i with
  | zero =>
      rw [bytes_nil v (by omega)]
      rfl
  | succ rounds induction =>
      rw [quads]
      by_cases first : i < nb
      · rw [if_pos first, bytes_cons v first]
        unfold quad
        by_cases second : i + 1 < nb
        · rw [bytes_cons v second]
          by_cases third : i + 2 < nb
          · rw [bytes_cons v third, induction (by omega)]
            simp only [if_pos second, if_pos third]
            rw [encode, split_bits]
            rfl
          · rw [bytes_nil v (by omega), induction (by omega), bytes_nil v (by omega)]
            simp only [if_pos second, if_neg third, encode, split_bits]
            rfl
        · have third : ¬i + 2 < nb := by omega
          rw [bytes_nil v (by omega), induction (by omega), bytes_nil v (by omega)]
          simp only [if_neg second, if_neg third, encode, split_bits]
          rfl
      · rw [if_neg first, bytes_nil v (by omega)]
        rfl

theorem emb_byte_at (v : Nat → UInt32) (n : Nat) {j : Nat} (small : j < 4) :
    embByte v (n * 4 + j) = (v n >>> (8 * j).toUInt32).toUInt8 := by
  have place : (n * 4 + j) >>> 2 = n := by
    rw [Nat.shiftRight_eq_div_pow]
    omega
  have offset : (n * 4 + j) &&& 3 = j := by
    have low : (n * 4 + j) &&& 3 = (n * 4 + j) % 4 := Nat.and_two_pow_sub_one_eq_mod _ 2
    omega
  unfold embByte
  rw [place, offset]

theorem bytes_floats (v : Nat → UInt32) (n : Nat) :
    bytesFrom v (n * 4) 0 = (List.range n).flatMap fun k =>
      [(v k).toUInt8, (v k >>> 8).toUInt8, (v k >>> 16).toUInt8, (v k >>> 24).toUInt8] := by
  induction n with
  | zero => rfl
  | succ n induction =>
      rw [List.range_succ, List.flatMap_append, ← induction]
      unfold bytesFrom
      rw [Nat.sub_zero, Nat.sub_zero, Nat.succ_mul, List.range_add, List.map_append,
        List.map_map]
      congr 1
      have four : List.range 4 = [0, 1, 2, 3] := rfl
      have low : (v n >>> (8 * 0).toUInt32).toUInt8 = (v n).toUInt8 :=
        congrArg UInt32.toUInt8 UInt32.shiftRight_zero
      simp only [four, List.map_cons, List.map_nil, Function.comp_apply, Nat.zero_add,
        List.flatMap_cons, List.flatMap_nil, List.append_nil]
      rw [emb_byte_at v n (by decide), emb_byte_at v n (by decide), emb_byte_at v n (by decide),
        emb_byte_at v n (by decide), low]
      rfl

/-- A strict reader of base 64 gets back the bytes of the vector, float after float, the low bytes
first. -/
theorem embedding_is_read_back (v : Nat → UInt32) (n : Nat) :
    decode standard (sbEmbB64 v n) =
      some ((List.range n).flatMap fun k =>
        [(v k).toUInt8, (v k >>> 8).toUInt8, (v k >>> 16).toUInt8, (v k >>> 24).toUInt8]) := by
  unfold sbEmbB64
  rw [quads_encode v (n * 4) (by omega), decode_encode, bytes_floats]

end GridcoreRunner.Embeddings
