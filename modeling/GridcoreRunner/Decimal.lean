import Mathlib.Data.Nat.Digits.Lemmas
import Mathlib.Data.List.TakeWhile
import Mathlib.Tactic.Common

/-!
# Decimal numerals

Printing as `%lu` and `%ld` do it, and reading as `strtol` does it in base ten:
blanks, a sign, then the longest run of digits.
-/

namespace Decimal

set_option autoImplicit false

def isDigit (c : UInt8) : Bool := 48 ≤ c && c ≤ 57

def isBlank (c : UInt8) : Bool := c == 32 || (9 ≤ c && c ≤ 13)

def digit (d : Nat) : UInt8 := UInt8.ofNat (48 + d)

def value (text : List UInt8) : Nat :=
  text.foldl (fun sum c => sum * 10 + (c.toNat - 48)) 0

def ofNat (n : Nat) : List UInt8 :=
  if n = 0 then [48] else ((Nat.digits 10 n).map digit).reverse

def ofInt (i : Int) : List UInt8 :=
  if i < 0 then 45 :: ofNat i.natAbs else ofNat i.natAbs

/-- Whether a minus sign stands in front, and the digits behind the sign. -/
def scan (text : List UInt8) : Bool × Nat :=
  match text.dropWhile isBlank with
  | [] => (false, 0)
  | c :: rest =>
      if c = 45 then (true, value (rest.takeWhile isDigit))
      else if c = 43 then (false, value (rest.takeWhile isDigit))
      else (false, value ((c :: rest).takeWhile isDigit))

def toInt (text : List UInt8) : Int :=
  if (scan text).1 then -(scan text).2 else (scan text).2

theorem value_snoc (text : List UInt8) (c : UInt8) :
    value (text ++ [c]) = value text * 10 + (c.toNat - 48) := by
  simp [value]

theorem digit_toNat {d : Nat} (small : d < 10) : (digit d).toNat = 48 + d := by
  simp only [digit, UInt8.toNat_ofNat']
  omega

theorem digit_digit {d : Nat} (small : d < 10) : isDigit (digit d) = true := by
  have read := digit_toNat small
  simp only [isDigit, Bool.and_eq_true, decide_eq_true_eq, UInt8.le_iff_toNat_le, read]
  simp
  omega

theorem value_digits (ds : List Nat) (small : ∀ d ∈ ds, d < 10) :
    value ((ds.map digit).reverse) = Nat.ofDigits 10 ds := by
  induction ds with
  | nil => rfl
  | cons d ds induction =>
      have rest := induction (by
        intro e inside
        exact small e (List.mem_cons_of_mem d inside))
      have here := digit_toNat (small d List.mem_cons_self)
      rw [List.map_cons, List.reverse_cons, value_snoc, rest, here, Nat.ofDigits_cons]
      omega

theorem value_of_nat (n : Nat) : value (ofNat n) = n := by
  by_cases zero : n = 0
  · rw [zero]
    rfl
  · rw [ofNat, if_neg zero, value_digits, Nat.ofDigits_digits]
    intro d inside
    exact Nat.digits_lt_base (by omega) inside

theorem of_nat_digit {n : Nat} {c : UInt8} (inside : c ∈ ofNat n) : isDigit c = true := by
  by_cases zero : n = 0
  · rw [ofNat, if_pos zero, List.mem_singleton] at inside
    rw [inside]
    decide
  · rw [ofNat, if_neg zero, List.mem_reverse, List.mem_map] at inside
    rcases inside with ⟨d, member, printed⟩
    rw [← printed]
    exact digit_digit (Nat.digits_lt_base (by omega) member)

theorem of_nat_ne_nil (n : Nat) : ofNat n ≠ [] := by
  by_cases zero : n = 0
  · rw [ofNat, if_pos zero]
    exact List.cons_ne_nil _ _
  · rw [ofNat, if_neg zero]
    simpa using Nat.digits_ne_nil_iff_ne_zero.mpr zero

theorem of_nat_length {n k : Nat} (some_ : 0 < k) (below : n < 10 ^ k) : (ofNat n).length ≤ k := by
  by_cases zero : n = 0
  · rw [ofNat, if_pos zero]
    exact some_
  · rw [ofNat, if_neg zero, List.length_reverse, List.length_map]
    exact (Nat.digits_length_le_iff (by omega) n).mpr below

theorem of_int_byte {i : Int} {c : UInt8} (inside : c ∈ ofInt i) : c = 45 ∨ isDigit c = true := by
  unfold ofInt at inside
  split_ifs at inside with negative
  · rcases List.mem_cons.mp inside with sign | printed
    · exact Or.inl sign
    · exact Or.inr (of_nat_digit printed)
  · exact Or.inr (of_nat_digit inside)

theorem digit_not_blank {c : UInt8} (digit : isDigit c = true) :
    isBlank c = false ∧ c ≠ 45 ∧ c ≠ 43 := by
  simp only [isDigit, Bool.and_eq_true, decide_eq_true_eq, UInt8.le_iff_toNat_le] at digit
  simp only [isBlank, ne_eq, ← UInt8.toNat_inj, Bool.or_eq_false_iff, Bool.and_eq_false_iff,
    beq_eq_false_iff_ne, decide_eq_false_iff_not, UInt8.le_iff_toNat_le]
  simp at digit ⊢
  omega

theorem scan_digits {text : List UInt8} (some_ : text ≠ [])
    (digits : ∀ c ∈ text, isDigit c = true) : scan text = (false, value text) := by
  cases text with
  | nil => exact absurd rfl some_
  | cons c rest =>
      have head := digit_not_blank (digits c List.mem_cons_self)
      have kept : (c :: rest).takeWhile isDigit = c :: rest := List.takeWhile_eq_self_iff.mpr digits
      rw [scan, List.dropWhile_cons_of_neg (by simp [head.1])]
      simp only [if_neg head.2.1, if_neg head.2.2, kept]

theorem scan_of_nat (n : Nat) : scan (ofNat n) = (false, n) := by
  rw [scan_digits (of_nat_ne_nil n) fun c inside => of_nat_digit inside, value_of_nat]

theorem to_int_of_int (i : Int) : toInt (ofInt i) = i := by
  unfold ofInt
  split_ifs with negative
  · have kept : (ofNat i.natAbs).takeWhile isDigit = ofNat i.natAbs :=
      List.takeWhile_eq_self_iff.mpr fun c inside => of_nat_digit inside
    have read : scan (45 :: ofNat i.natAbs) = (true, i.natAbs) := by
      rw [scan, List.dropWhile_cons_of_neg (by decide)]
      simp only [if_pos, kept, value_of_nat]
    simp only [toInt, read, if_true]
    omega
  · simp only [toInt, scan_of_nat, Bool.false_eq_true, if_false]
    omega

/-! ## Numbers of a fixed width -/

theorem value_append (front back : List UInt8) :
    value (front ++ back) = value front * 10 ^ back.length + value back := by
  induction back using List.reverseRecOn with
  | nil =>
      rw [List.append_nil, List.length_nil, Nat.pow_zero, Nat.mul_one]
      rfl
  | append_singleton back c induction =>
      rw [← List.append_assoc, value_snoc, value_snoc, induction, List.length_append,
        List.length_singleton, Nat.pow_succ, Nat.add_mul, Nat.mul_assoc, Nat.add_assoc]

theorem value_lt {text : List UInt8} (digits : ∀ c ∈ text, isDigit c = true) :
    value text < 10 ^ text.length := by
  induction text using List.reverseRecOn with
  | nil => exact Nat.one_pos
  | append_singleton text c induction =>
      have earlier := induction fun c inside => digits c (List.mem_append_left _ inside)
      have last := digits c (List.mem_append_right _ (List.mem_singleton.mpr rfl))
      simp only [isDigit, Bool.and_eq_true, decide_eq_true_eq, UInt8.le_iff_toNat_le,
        UInt8.reduceToNat] at last
      rw [value_snoc, List.length_append, List.length_singleton, Nat.pow_succ]
      omega

/-- `%0*llu`. -/
def pad (width n : Nat) : List UInt8 := List.replicate (width - (ofNat n).length) 48 ++ ofNat n

theorem pad_digit {width n : Nat} {c : UInt8} (inside : c ∈ pad width n) : isDigit c = true := by
  rcases List.mem_append.mp inside with filled | printed
  · rw [List.eq_of_mem_replicate filled]
    decide
  · exact of_nat_digit printed

theorem pad_length {width n : Nat} (some_ : 0 < width) (below : n < 10 ^ width) :
    (pad width n).length = width := by
  have short := of_nat_length some_ below
  rw [pad, List.length_append, List.length_replicate]
  omega

theorem value_zeros (count : Nat) : value (List.replicate count 48) = 0 := by
  induction count with
  | zero => rfl
  | succ count induction =>
      rw [List.replicate_succ', value_snoc, induction]
      rfl

theorem value_pad (width n : Nat) : value (pad width n) = n := by
  rw [pad, value_append, value_zeros, value_of_nat, Nat.zero_mul, Nat.zero_add]

/-- A number printed without zeros in front. -/
theorem of_nat_head {n : Nat} (positive : n ≠ 0) : (ofNat n).head? ≠ some 48 := by
  have digits : Nat.digits 10 n ≠ [] := Nat.digits_ne_nil_iff_ne_zero.mpr positive
  have last := Nat.getLast_digit_ne_zero 10 positive
  have below : (Nat.digits 10 n).getLast digits < 10 :=
    Nat.digits_lt_base (by omega) (List.getLast_mem digits)
  rw [ofNat, if_neg positive, List.head?_reverse, List.getLast?_map,
    List.getLast?_eq_some_getLast digits, Option.map_some]
  intro zero
  have printed := congrArg UInt8.toNat (Option.some.inj zero)
  rw [digit_toNat below, show (48 : UInt8).toNat = 48 from rfl] at printed
  omega

theorem of_nat_full {width n : Nat} (wide : 10 ^ width ≤ n) : width < (ofNat n).length := by
  have positive : n ≠ 0 := by
    have one := Nat.one_le_pow width 10 (by omega)
    omega
  rw [ofNat, if_neg positive, List.length_reverse, List.length_map]
  exact (Nat.lt_digits_length_iff (by omega) n).mpr wide

/-- A number that fills its width is printed as it is. -/
theorem pad_full {width n : Nat} (wide : 10 ^ width ≤ n) : pad (width + 1) n = ofNat n := by
  have long := of_nat_full wide
  rw [pad, show width + 1 - (ofNat n).length = 0 by omega]
  rfl

end Decimal
