import Mathlib.Data.List.Basic
import Mathlib.Tactic.Common

/-!
# Base 64

Bytes as text, three bytes in four letters of an alphabet of 64; what is left at the end is
filled up with a sign of its own. The reader takes four letters at a time, wants the sign only
at the end, and no bit behind the last byte.
-/

namespace GridcoreRunner.Base64

set_option autoImplicit false

/-- Letters for the numbers below 64, their inverse, and the sign that fills up. -/
structure Alphabet where
  letter : Nat → UInt8
  value : UInt8 → Option Nat
  fill : UInt8
  read : ∀ v < 64, value (letter v) = some v
  apart : ∀ v < 64, letter v ≠ fill

variable (A : Alphabet)

/-- The four numbers of three bytes. -/
def split (a b c : UInt8) : Nat × Nat × Nat × Nat :=
  (a.toNat / 4, a.toNat % 4 * 16 + b.toNat / 16, b.toNat % 16 * 4 + c.toNat / 64, c.toNat % 64)

def encode : List UInt8 → List UInt8
  | [] => []
  | [a] =>
      let v := split a 0 0
      [A.letter v.1, A.letter v.2.1, A.fill, A.fill]
  | [a, b] =>
      let v := split a b 0
      [A.letter v.1, A.letter v.2.1, A.letter v.2.2.1, A.fill]
  | a :: b :: c :: rest =>
      let v := split a b c
      A.letter v.1 :: A.letter v.2.1 :: A.letter v.2.2.1 :: A.letter v.2.2.2 :: encode rest

/-- Two letters with nothing behind the first byte. -/
def readOne (p q : UInt8) : Option (List UInt8) :=
  match A.value p, A.value q with
  | some u, some v => if v % 16 = 0 then some [(u * 4 + v / 16).toUInt8] else none
  | _, _ => none

/-- Three letters with nothing behind the second byte. -/
def readTwo (p q r : UInt8) : Option (List UInt8) :=
  match A.value p, A.value q, A.value r with
  | some u, some v, some w =>
      if w % 4 = 0 then some [(u * 4 + v / 16).toUInt8, (v % 16 * 16 + w / 4).toUInt8] else none
  | _, _, _ => none

def readThree (p q r s : UInt8) : Option (List UInt8) :=
  match A.value p, A.value q, A.value r, A.value s with
  | some u, some v, some w, some x =>
      some [(u * 4 + v / 16).toUInt8, (v % 16 * 16 + w / 4).toUInt8, (w % 4 * 64 + x).toUInt8]
  | _, _, _, _ => none

def decode : List UInt8 → Option (List UInt8)
  | [] => some []
  | p :: q :: r :: s :: rest =>
      if s = A.fill then
        if rest ≠ [] then none
        else if r = A.fill then readOne A p q
        else readTwo A p q r
      else (readThree A p q r s).bind fun bytes => (decode rest).map fun more => bytes ++ more
  | _ => none

variable {A}

theorem split_small (a b c : UInt8) :
    (split a b c).1 < 64 ∧ (split a b c).2.1 < 64 ∧ (split a b c).2.2.1 < 64 ∧
      (split a b c).2.2.2 < 64 := by
  have first := a.toNat_lt
  have second := b.toNat_lt
  have third := c.toNat_lt
  unfold split
  simp only
  omega

theorem byte_of {n : Nat} {a : UInt8} (same : n = a.toNat) : n.toUInt8 = a := by
  rw [same]
  exact UInt8.ofNat_toNat

/-- What was written is read. -/
theorem decode_encode (bytes : List UInt8) : decode A (encode A bytes) = some bytes := by
  induction bytes using encode.induct with
  | case1 => rfl
  | case2 a =>
      obtain ⟨first, second, _, _⟩ := split_small a 0 0
      have bound := a.toNat_lt
      rw [encode, decode, if_pos rfl, if_neg (fun some' => some' rfl), if_pos rfl, readOne,
        A.read _ first, A.read _ second]
      have zero : (0 : UInt8).toNat = 0 := rfl
      simp only [split, zero]
      rw [if_pos (by omega), byte_of (a := a) (by omega)]
  | case3 a b =>
      obtain ⟨first, second, third, _⟩ := split_small a b 0
      have bound := a.toNat_lt
      have bound' := b.toNat_lt
      rw [encode, decode, if_pos rfl, if_neg (fun some' => some' rfl), if_neg (A.apart _ third),
        readTwo, A.read _ first, A.read _ second, A.read _ third]
      have zero : (0 : UInt8).toNat = 0 := rfl
      simp only [split, zero]
      rw [if_pos (by omega), byte_of (a := a) (by omega), byte_of (a := b) (by omega)]
  | case4 a b c rest induction =>
      obtain ⟨first, second, third, fourth⟩ := split_small a b c
      have bound := a.toNat_lt
      have bound' := b.toNat_lt
      have bound'' := c.toNat_lt
      rw [encode, decode, if_neg (A.apart _ fourth), readThree, A.read _ first, A.read _ second,
        A.read _ third, A.read _ fourth, induction]
      simp only [split, Option.bind_some, Option.map_some]
      rw [byte_of (a := a) (by omega), byte_of (a := b) (by omega), byte_of (a := c) (by omega)]
      rfl

end GridcoreRunner.Base64
