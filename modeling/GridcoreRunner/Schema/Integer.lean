import GridcoreRunner.Schema.Closer

/-!
# Bounded integers

A spelling is taken as long as it can become an integer in the bounds, and the closer
finishes it as one. Three kinds of spellings are the exception: behind a zero in the bounds
any digit is taken; no minus sign is taken where the lower bound is zero, though `-0` is
in the bounds; and behind a lone minus sign the closer tries fifteen digits at most.
-/

namespace GridcoreRunner.Schema

set_option autoImplicit false

open GridcoreRunner.Json

/-- The bounds that `compile_integer_bounds` leaves, in the range of safe integers. -/
structure IntBounds where
  numMin : Option ℤ
  numMax : Option ℤ
  lowSafe : ∀ low ∈ numMin, -safeInteger ≤ low ∧ low ≤ safeInteger
  highSafe : ∀ high ∈ numMax, -safeInteger ≤ high ∧ high ≤ safeInteger
  ordered : ∀ low ∈ numMin, ∀ high ∈ numMax, low ≤ high

def unbounded : IntBounds where
  numMin := none
  numMax := none
  lowSafe := fun low never => by cases never
  highSafe := fun high never => by cases never
  ordered := fun low never => by cases never

/-- In the bounds, and a safe integer. -/
def IntBounds.Admits (b : IntBounds) (x : ℤ) : Prop :=
  inRange b.numMin b.numMax x = true ∧ -safeInteger ≤ x ∧ x ≤ safeInteger

/-! ## Spellings -/

def signed (neg : Bool) (digits : Bytes) : Bytes := if neg then minus :: digits else digits

def signedValue (neg : Bool) (magnitude : Nat) : ℤ := if neg then -(magnitude : ℤ) else magnitude

/-- The digits of a JSON integer, which begin with zero only if that is all. -/
def Numeral (digits : Bytes) : Prop :=
  digits ≠ [] ∧ (∀ c ∈ digits, isDigit c = true) ∧ (digits.head? = some zero → digits = [zero])

theorem zero_numeral : Numeral [zero] :=
  ⟨List.cons_ne_nil _ _, List.forall_mem_singleton.mpr rfl, fun _ => rfl⟩

def JsonInteger (s : Bytes) (x : ℤ) : Prop :=
  ∃ neg digits, Numeral digits ∧ s = signed neg digits ∧ x = signedValue neg (Decimal.value digits)

/-- The spelling can be carried on to an integer in the bounds. -/
def IntBounds.Extends (b : IntBounds) (w : Bytes) : Prop :=
  ∃ more x, JsonInteger (w ++ more) x ∧ b.Admits x

/-- A frame that has read nothing of its integer. -/
def IntBounds.begin (b : IntBounds) : Sframe :=
  { Sframe.start (.int b.numMin b.numMax) with phase := .num }

/-- `integer_take_byte`, byte by byte. -/
def IntBounds.take (b : IntBounds) (w : Bytes) : Option Sframe :=
  w.foldlM (integerTakeByte b.numMin b.numMax) b.begin

/-- A minus sign is taken where the lower bound is negative. -/
def IntBounds.signTaken (b : IntBounds) (neg : Bool) : Bool :=
  !neg || b.numMin.all fun low => decide (low < 0)

/-- What is asked of the reader and, once it has read a byte, of the closer. -/
def IntBounds.Exact (b : IntBounds) (w : Bytes) : Prop :=
  ((b.take w).isSome = true ↔ b.Extends w) ∧
    ∀ f, w ≠ [] → b.take w = some f → integerInBounds b.numMin b.numMax f = false →
      ∃ x, JsonInteger (w ++ closeInteger b.numMin b.numMax f) x ∧ b.Admits x

/-- Digits behind a zero, the sign of zero, and a sign too far from the bounds. -/
def IntBounds.Slips (b : IntBounds) (neg : Bool) (digits : Bytes) : Prop :=
  (digits.head? = some zero ∧ 2 ≤ digits.length ∧ b.Admits 0 ∧ b.signTaken neg = true) ∨
    (neg = true ∧ (digits = [] ∨ digits = [zero]) ∧ b.numMin = some 0) ∨
      (neg = true ∧ digits = [] ∧ ∃ high ∈ b.numMax, high ≤ -(10 : ℤ) ^ 15)

variable {b : IntBounds}

theorem signed_append (neg : Bool) (digits more : Bytes) :
    signed neg digits ++ more = signed neg (digits ++ more) := by
  cases neg <;> rfl

theorem digit_range {c : UInt8} (digit : isDigit c = true) : 48 ≤ c.toNat ∧ c.toNat ≤ 57 := by
  simp only [isDigit, Bool.and_eq_true, decide_eq_true_eq, UInt8.le_iff_toNat_le,
    UInt8.reduceToNat] at digit
  exact digit

theorem minus_not_digit : isDigit minus = false := by decide

/-- The sign of a spelling, and what stands behind it. -/
theorem signed_inj {neg other : Bool} {digits others : Bytes}
    (plain : neg = false → digits.head? ≠ some minus) (numeral : ∀ c ∈ others, isDigit c = true)
    (same : signed neg digits = signed other others) : neg = other ∧ digits = others := by
  cases neg with
  | true =>
      cases other with
      | true => exact ⟨rfl, List.tail_eq_of_cons_eq same⟩
      | false =>
          have sign := numeral minus (by
            rw [← show minus :: digits = others from same]
            exact List.mem_cons_self)
          rw [minus_not_digit] at sign
          cases sign
  | false =>
      cases other with
      | true =>
          exfalso
          apply plain rfl
          rw [show digits = minus :: others from same]
          rfl
      | false => exact ⟨rfl, same⟩

/-- Every integer has a spelling. -/
theorem spell_integer (x : ℤ) :
    JsonInteger (signed (decide (x < 0)) (Decimal.ofNat x.natAbs)) x := by
  refine ⟨decide (x < 0), Decimal.ofNat x.natAbs, ⟨Decimal.of_nat_ne_nil _, ?_, ?_⟩, rfl, ?_⟩
  · intro c inside
    exact Decimal.of_nat_digit inside
  · intro leads
    by_cases nothing : x.natAbs = 0
    · rw [nothing]
      rfl
    · exact absurd leads (Decimal.of_nat_head nothing)
  · rw [Decimal.value_of_nat]
    unfold signedValue
    by_cases negative : x < 0
    · rw [decide_eq_true negative, if_pos rfl]
      omega
    · rw [decide_eq_false negative, if_neg Bool.false_ne_true]
      omega

theorem admits_iff (x : ℤ) : b.Admits x ↔
    wantLo b.numMin ≤ x ∧ x ≤ wantHi b.numMax ∧ -safeInteger ≤ x ∧ x ≤ safeInteger := by
  rcases b with ⟨numMin, numMax, lowSafe, highSafe, ordered⟩
  unfold IntBounds.Admits inRange wantLo wantHi
  dsimp only
  cases numMin <;> cases numMax <;>
    simp only [Option.all_none, Option.all_some, Option.getD_none, Option.getD_some, Bool.and_eq_true,
      decide_eq_true_eq, Bool.and_true, Bool.true_and, true_and] <;> omega

/-- The bounds hold an integer. -/
theorem want_ordered (b : IntBounds) : wantLo b.numMin ≤ wantHi b.numMax ∧
    -safeInteger ≤ wantLo b.numMin ∧ wantLo b.numMin ≤ safeInteger ∧
      -safeInteger ≤ wantHi b.numMax ∧ wantHi b.numMax ≤ safeInteger := by
  rcases b with ⟨numMin, numMax, lowSafe, highSafe, ordered⟩
  have positive : (0 : ℤ) < safeInteger := by decide
  unfold wantLo wantHi
  dsimp only
  cases numMin with
  | none =>
      cases numMax with
      | none => simp only [Option.getD_none]; omega
      | some high =>
          have high' := highSafe high rfl
          simp only [Option.getD_none, Option.getD_some]
          omega
  | some low =>
      have low' := lowSafe low rfl
      cases numMax with
      | none =>
          simp only [Option.getD_none, Option.getD_some]
          omega
      | some high =>
          have high' := highSafe high rfl
          have order := ordered low rfl high rfl
          simp only [Option.getD_some]
          omega

/-! ## The values of a prefix -/

/-- With `m` more digits the prefix becomes an integer in the bounds. -/
def IntBounds.ReachesWith (b : IntBounds) (neg : Bool) (p m : Nat) : Prop :=
  ∃ s < 10 ^ m, b.Admits (signedValue neg (p * 10 ^ m + s))

theorem signed_value_le {neg : Bool} {n : Nat} (inside : signedValue neg n ≤ safeInteger)
    (inside' : -safeInteger ≤ signedValue neg n) : (n : ℤ) ≤ safeInteger := by
  cases neg with
  | true =>
      have same : signedValue true n = -(n : ℤ) := rfl
      omega
  | false => exact inside

/-- Two ranges of integers meet when each begins before the other ends. -/
theorem ranges_meet {b : IntBounds} {neg : Bool} {p m : Nat}
    (small : ((p * 10 ^ m : Nat) : ℤ) ≤ safeInteger) :
    rangesIntersect (prefixRange neg p (10 ^ m)).1 (prefixRange neg p (10 ^ m)).2
      (wantLo b.numMin) (wantHi b.numMax) = true ↔ b.ReachesWith neg p m := by
  have order := want_ordered b
  have one : 1 ≤ 10 ^ m := Nat.one_le_pow m 10 (by omega)
  have product : ((p : ℤ) * ((10 ^ m : Nat) : ℤ)) = ((p * 10 ^ m : Nat) : ℤ) := (Nat.cast_mul _ _).symm
  unfold IntBounds.ReachesWith rangesIntersect prefixRange
  simp only [admits_iff, Bool.and_eq_true, decide_eq_true_eq, product]
  generalize p * 10 ^ m = low at small
  generalize 10 ^ m = scale at one
  generalize wantLo b.numMin = lo at order
  generalize wantHi b.numMax = hi at order
  cases neg with
  | true =>
      simp only [if_true, signedValue]
      constructor
      · rintro ⟨below, above⟩
        refine ⟨(max (low : ℤ) (-hi) - low).toNat, ?_, ?_⟩ <;> omega
      · rintro ⟨s, short, inside⟩
        omega
  | false =>
      simp only [Bool.false_eq_true, if_false, signedValue]
      constructor
      · rintro ⟨below, above⟩
        refine ⟨(max (low : ℤ) lo - low).toNat, ?_, ?_⟩ <;> omega
      · rintro ⟨s, short, inside⟩
        omega

theorem reaches_small {neg : Bool} {p m : Nat} (reaches : b.ReachesWith neg p m) :
    ((p * 10 ^ m : Nat) : ℤ) ≤ safeInteger := by
  rcases reaches with ⟨s, _, inside⟩
  have small := signed_value_le inside.2.2 inside.2.1
  omega

/-- The loop finds a number of digits to add, if there is one. -/
theorem viable_from_iff {neg : Bool} {p : Nat} (positive : 0 < p) (rounds k : Nat)
    (small : ((p * 10 ^ k : Nat) : ℤ) ≤ safeInteger) :
    viableFrom neg p (wantLo b.numMin) (wantHi b.numMax) rounds (10 ^ k) = true ↔
      ∃ m, k ≤ m ∧ m < k + rounds ∧ b.ReachesWith neg p m := by
  induction rounds generalizing k with
  | zero =>
      constructor
      · intro never
        cases never
      · rintro ⟨m, least, most, _⟩
        omega
  | succ rounds induction =>
      have meets := @ranges_meet b neg p k small
      unfold viableFrom
      dsimp only
      by_cases here : b.ReachesWith neg p k
      · rw [if_pos (meets.mpr here)]
        exact ⟨fun _ => ⟨k, Nat.le_refl k, by omega, here⟩, fun _ => rfl⟩
      · rw [if_neg fun intersect => here (meets.mp intersect)]
        have grows : ((p * 10 ^ (k + 1) : Nat) : ℤ) = p * (((10 ^ k : Nat) : ℤ) * 10) := by
          rw [Nat.pow_succ, Nat.cast_mul, Nat.cast_mul]
          rfl
        by_cases more : ((p * 10 ^ (k + 1) : Nat) : ℤ) ≤ safeInteger
        · rw [if_neg]
          · rw [← Nat.pow_succ, induction (k + 1) more]
            constructor
            · rintro ⟨m, least, most, reaches⟩
              exact ⟨m, by omega, by omega, reaches⟩
            · rintro ⟨m, least, most, reaches⟩
              refine ⟨m, ?_, by omega, reaches⟩
              by_contra short
              have same : m = k := by omega
              rw [same] at reaches
              exact here reaches
          · rw [not_or, not_lt, not_lt]
            have scale : (0 : ℤ) < ((10 ^ k : Nat) : ℤ) * 10 := by
              have one := Nat.one_le_pow k 10 (by omega)
              omega
            constructor
            · have factor : ((10 ^ k : Nat) : ℤ) * 10 ≤ p * (((10 ^ k : Nat) : ℤ) * 10) :=
                le_mul_of_one_le_left (le_of_lt scale) (by omega)
              omega
            · rw [Int.le_ediv_iff_mul_le scale, ← grows]
              exact more
        · rw [if_pos]
          · constructor
            · intro never
              cases never
            · rintro ⟨m, least, most, reaches⟩
              exfalso
              by_cases same : m = k
              · rw [same] at reaches
                exact here reaches
              · have fits := reaches_small reaches
                have longer : p * 10 ^ (k + 1) ≤ p * 10 ^ m :=
                  Nat.mul_le_mul_left p (Nat.pow_le_pow_right (by omega) (by omega))
                omega
          · right
            have scale : (0 : ℤ) < ((10 ^ k : Nat) : ℤ) * 10 := by
              have one := Nat.one_le_pow k 10 (by omega)
              omega
            by_contra small'
            rw [gt_iff_lt, not_lt, Int.le_ediv_iff_mul_le scale, ← grows] at small'
            exact more small'

/-! ## What a spelling can become -/

/-- Digits a number may go on behind: there are some, and no zero leads them. -/
structure Begun (digits : Bytes) : Prop where
  some_ : digits ≠ []
  digit : ∀ c ∈ digits, isDigit c = true
  lead : digits.head? ≠ some zero

theorem Begun.head {digits : Bytes} (begun : Begun digits) (more : Bytes) :
    (digits ++ more).head? = digits.head? := by
  cases digits with
  | nil => exact absurd rfl begun.some_
  | cons c digits => rfl

theorem Begun.plain {digits : Bytes} (begun : Begun digits) (more : Bytes) :
    (digits ++ more).head? ≠ some minus := by
  rw [begun.head]
  intro sign
  have digit := begun.digit minus (List.mem_of_head? sign)
  rw [minus_not_digit] at digit
  cases digit

theorem Begun.positive {digits : Bytes} (begun : Begun digits) : 0 < Decimal.value digits := by
  cases digits with
  | nil => exact absurd rfl begun.some_
  | cons c digits =>
      have first := digit_range (begun.digit c List.mem_cons_self)
      have other : c.toNat ≠ 48 := by
        intro same
        apply begun.lead
        rw [List.head?_cons, UInt8.toNat_inj.mp (show c.toNat = zero.toNat from same)]
      have shift := Decimal.value_append [c] digits
      have one : 0 < 10 ^ digits.length := Nat.pow_pos (by omega)
      have lead : Decimal.value [c] = 0 * 10 + (c.toNat - 48) := rfl
      have product : 0 < Decimal.value [c] * 10 ^ digits.length :=
        Nat.mul_pos (by omega) one
      rw [List.singleton_append] at shift
      omega

/-- Behind digits that lead a number, digits make another. -/
theorem Begun.numeral {digits more : Bytes} (begun : Begun digits)
    (digit : ∀ c ∈ more, isDigit c = true) : Numeral (digits ++ more) := by
  refine ⟨?_, ?_, ?_⟩
  · intro nothing
    exact begun.some_ (List.append_eq_nil_iff.mp nothing).1
  · intro c inside
    rcases List.mem_append.mp inside with front | back
    · exact begun.digit c front
    · exact digit c back
  · intro leads
    rw [begun.head] at leads
    exact absurd leads begun.lead

theorem extends_begun {neg : Bool} {digits : Bytes} (begun : Begun digits) :
    b.Extends (signed neg digits) ↔ ∃ m, b.ReachesWith neg (Decimal.value digits) m := by
  constructor
  · rintro ⟨more, x, ⟨other, others, numeral, spelled, value⟩, inside⟩
    rw [signed_append] at spelled
    rcases signed_inj (fun _ => begun.plain more) numeral.2.1 spelled with ⟨sign, rest⟩
    have digit : ∀ c ∈ more, isDigit c = true := by
      intro c here
      apply numeral.2.1
      rw [← rest]
      exact List.mem_append_right _ here
    refine ⟨more.length, Decimal.value more, Decimal.value_lt digit, ?_⟩
    rw [value, ← sign, ← rest, Decimal.value_append] at inside
    exact inside
  · rintro ⟨m, s, short, inside⟩
    refine ⟨if m = 0 then [] else Decimal.pad m s, _, ⟨neg, _, begun.numeral ?_, signed_append _ _ _,
      rfl⟩, ?_⟩
    · intro c here
      split at here
      · cases here
      · exact Decimal.pad_digit here
    · rw [Decimal.value_append]
      split
      · next none' =>
          rw [none'] at short inside
          have nothing : s = 0 := by omega
          rw [nothing] at inside
          exact inside
      · next some_ =>
          rw [Decimal.pad_length (by omega) short, Decimal.value_pad]
          exact inside

/-- Behind a leading zero there is only zero itself. -/
theorem extends_zero {neg : Bool} {rest : Bytes} :
    b.Extends (signed neg (zero :: rest)) ↔ rest = [] ∧ b.Admits 0 := by
  constructor
  · rintro ⟨more, x, ⟨other, others, numeral, spelled, value⟩, inside⟩
    rw [signed_append] at spelled
    have plain : (zero :: rest ++ more).head? ≠ some minus := by
      intro sign
      cases sign
    rcases signed_inj (fun _ => plain) numeral.2.1 spelled with ⟨sign, same⟩
    have alone := numeral.2.2 (by
      rw [← same]
      rfl)
    have nothing : x = 0 := by
      rw [value, alone]
      cases other <;> rfl
    rw [nothing] at inside
    rw [alone] at same
    exact ⟨(List.append_eq_nil_iff.mp (List.tail_eq_of_cons_eq same)).1, inside⟩
  · rintro ⟨alone, inside⟩
    rw [alone]
    refine ⟨[], 0, ⟨neg, [zero], zero_numeral, List.append_nil _, ?_⟩,
      inside⟩
    cases neg <;> rfl

/-- Some integer is in the bounds. -/
theorem admits_some (b : IntBounds) : b.Extends [] := by
  have order := want_ordered b
  have bounds : b.Admits (wantLo b.numMin) := (admits_iff _).mpr (by omega)
  exact ⟨_, _, spell_integer _, bounds⟩

theorem low_iff : (b.numMin.all fun low => decide (low < 0)) = true ↔ wantLo b.numMin < 0 := by
  cases least : b.numMin with
  | none => exact ⟨fun _ => by decide, fun _ => rfl⟩
  | some low => exact decide_eq_true_iff

/-- A minus sign may lead to a negative integer, or to zero. -/
theorem extends_minus : b.Extends [minus] ↔ b.signTaken true = true ∨ b.Admits 0 := by
  have order := want_ordered b
  rw [show b.signTaken true = b.numMin.all fun low => decide (low < 0) from rfl, low_iff]
  constructor
  · rintro ⟨more, x, ⟨other, others, numeral, spelled, value⟩, inside⟩
    rcases @signed_inj true other more others (fun absurd => by cases absurd) numeral.2.1 spelled
      with ⟨sign, same⟩
    rw [← sign] at value
    have below : x ≤ 0 := by
      rw [value]
      show -(Decimal.value others : ℤ) ≤ 0
      omega
    by_cases nothing : x = 0
    · rw [nothing] at inside
      exact Or.inr inside
    · have low := (admits_iff x).mp inside
      exact Or.inl (by omega)
  · rintro (negative | inside)
    · have some_ : b.Admits (wantLo b.numMin) := (admits_iff _).mpr (by omega)
      have spelled := spell_integer (wantLo b.numMin)
      rw [decide_eq_true negative] at spelled
      exact ⟨_, _, spelled, some_⟩
    · exact ⟨[zero], 0, ⟨true, [zero], zero_numeral, rfl, rfl⟩, inside⟩

/-- Only where a minus sign is taken, a negative integer is in the bounds. -/
theorem sign_of_reaches {neg : Bool} {p m : Nat} (positive : 0 < p)
    (reaches : b.ReachesWith neg p m) : b.signTaken neg = true := by
  cases neg with
  | false => rfl
  | true =>
      rcases reaches with ⟨s, _, inside⟩
      have low := (admits_iff _).mp inside
      have value : signedValue true (p * 10 ^ m + s) = -((p * 10 ^ m + s : Nat) : ℤ) := rfl
      have one : 0 < p * 10 ^ m := Nat.mul_pos positive (Nat.pow_pos (by omega))
      apply low_iff.mpr
      omega

/-! ## The reader, digit by digit -/

/-- The frame behind a sign and the digits of a number that zero does not lead. -/
structure Reads (neg : Bool) (digits : Bytes) (f : Sframe) : Prop where
  numAbs : f.numAbs = Decimal.value digits
  num : f.num = if digits = [] then if neg then .minus else .start else .int
  sign : f.sign = if neg then -1 else if digits = [] then 0 else 1

theorem digit_not_minus {c : UInt8} (digit : isDigit c = true) : c ≠ minus := by
  intro same
  rw [same, minus_not_digit] at digit
  cases digit

/-- A digit that begins or goes on a number. -/
theorem num_byte_digit {c : UInt8} (digit : isDigit c = true) {st : NSt}
    (open' : st = .start ∨ st = .minus ∨ st = .int) : numByte c st true =
      .ok (if st ≠ .int ∧ c = zero then .zero else .int) := by
  have range := digit_range digit
  have larger : c ≠ zero → one ≤ c ∧ c ≤ 0x39 := by
    intro other
    have apart : c.toNat ≠ 48 := fun same => other (UInt8.toNat_inj.mp same)
    rw [UInt8.le_iff_toNat_le, UInt8.le_iff_toNat_le]
    constructor
    · show 49 ≤ c.toNat
      omega
    · show c.toNat ≤ 57
      omega
  rcases open' with start | sign | inside
  · rw [start]
    unfold numByte
    dsimp only
    rw [if_neg (digit_not_minus digit)]
    by_cases leads : c = zero
    · rw [if_pos leads, if_pos ⟨NSt.noConfusion, leads⟩]
    · rw [if_neg leads, if_pos (larger leads), if_neg fun both => leads both.2]
  · rw [sign]
    unfold numByte
    dsimp only
    by_cases leads : c = zero
    · rw [if_pos leads, if_pos ⟨NSt.noConfusion, leads⟩]
    · rw [if_neg leads, if_pos (larger leads), if_neg fun both => leads both.2]
  · rw [inside]
    unfold numByte
    dsimp only
    rw [if_pos digit, if_neg fun both => both.1 rfl]

theorem safe_ten (p c : Nat) (digit : c ≤ 9) :
    ((p : ℤ) > safeInteger / 10 → ((p * 10 + c : Nat) : ℤ) > safeInteger) := by
  intro large
  unfold safeInteger at large ⊢
  omega

theorem unbounded_admits (free : (b.numMin.isNone && b.numMax.isNone) = true) {x : ℤ}
    (low : -safeInteger ≤ x) (high : x ≤ safeInteger) : b.Admits x := by
  rw [Bool.and_eq_true] at free
  rw [admits_iff, Option.isNone_iff_eq_none.mp free.1, Option.isNone_iff_eq_none.mp free.2]
  exact ⟨low, high, low, high⟩

theorem reaches_admits {neg : Bool} {p : Nat} :
    b.ReachesWith neg p 0 ↔ b.Admits (signedValue neg p) := by
  constructor
  · rintro ⟨s, short, inside⟩
    have nothing : s = 0 := by omega
    rw [nothing] at inside
    rw [show p = p * 10 ^ 0 + 0 by omega]
    exact inside
  · intro inside
    exact ⟨0, Nat.one_pos, by
      rw [show p * 10 ^ 0 + 0 = p by omega]
      exact inside⟩

/-- The test of a prefix that zero does not lead. -/
theorem prefix_viable_iff {neg : Bool} {f : Sframe} (inside : f.num = .int)
    (sign : decide (f.sign < 0) = neg) (positive : 0 < f.numAbs)
    (small : (f.numAbs : ℤ) ≤ safeInteger) :
    integerPrefixViable b.numMin b.numMax f = true ↔ ∃ m, b.ReachesWith neg f.numAbs m := by
  have loop := @viable_from_iff b neg f.numAbs positive 17 0 (by
    rw [Nat.pow_zero, Nat.mul_one]
    exact small)
  rw [Nat.pow_zero] at loop
  unfold integerPrefixViable
  by_cases free : (b.numMin.isNone && b.numMax.isNone) = true
  · rw [if_pos free]
    refine ⟨fun _ => ⟨0, reaches_admits.mpr (unbounded_admits free ?_ ?_)⟩, fun _ => rfl⟩
    · unfold signedValue
      split <;> omega
    · unfold signedValue
      split <;> omega
  rw [if_neg free, if_neg (not_lt.mpr small), inside, if_neg NSt.noConfusion, sign, loop]
  constructor
  · rintro ⟨m, _, _, reaches⟩
    exact ⟨m, reaches⟩
  · rintro ⟨m, reaches⟩
    refine ⟨m, Nat.zero_le m, ?_, reaches⟩
    by_contra long
    have fits := reaches_small reaches
    have wide : 10 ^ 17 ≤ 10 ^ m := Nat.pow_le_pow_right (by omega) (by omega)
    have product : 1 * 10 ^ 17 ≤ f.numAbs * 10 ^ m := Nat.mul_le_mul positive wide
    unfold safeInteger at fits
    omega

/-- Behind the sign a zero is taken where zero is in the bounds. -/
theorem take_zero {neg : Bool} {f : Sframe} (reads : Reads neg [] f) :
    integerTakeByte b.numMin b.numMax f zero = none ∧ ¬b.Admits 0 ∨
      b.Admits 0 ∧ ∃ g, integerTakeByte b.numMin b.numMax f zero = some g ∧ g.num = .zero ∧
        integerValue g = some 0 := by
  have num : f.num = .start ∨ f.num = .minus ∨ f.num = .int := by
    rw [reads.num, if_pos rfl]
    cases neg with
    | true => exact Or.inr (Or.inl rfl)
    | false => exact Or.inl rfl
  have other : f.num ≠ .int := by
    rw [reads.num, if_pos rfl]
    cases neg <;> exact NSt.noConfusion
  have nothing : f.numAbs = 0 := reads.numAbs
  unfold integerTakeByte
  rw [num_byte_digit (by decide) num, if_pos ⟨other, rfl⟩]
  dsimp only
  rw [if_neg fun both => absurd both.2 (by decide), if_pos (show isDigit zero = true by decide),
    nothing, if_neg (by decide), show 0 * 10 + (zero.toNat - 0x30) = 0 from rfl, if_neg (by decide)]
  generalize taken : ({ f with
    num := .zero, numAbs := 0, sign := if f.sign = 0 then 1 else f.sign } : Sframe) = g
  have zero_ : g.num = .zero := by rw [← taken]
  have numAbs : g.numAbs = 0 := by rw [← taken]
  have viable : integerPrefixViable b.numMin b.numMax g = true ↔ b.Admits 0 := by
    unfold integerPrefixViable
    by_cases free : (b.numMin.isNone && b.numMax.isNone) = true
    · rw [if_pos free]
      exact ⟨fun _ => unbounded_admits free (by decide) (by decide), fun _ => rfl⟩
    · rw [if_neg free, numAbs, if_neg (by decide), zero_, if_pos rfl, admits_iff]
      dsimp only
      rw [Nat.cast_zero, ite_self, Bool.and_eq_true, decide_eq_true_eq, decide_eq_true_eq]
      exact ⟨fun both => ⟨both.1, both.2, by decide, by decide⟩, fun all => ⟨all.1, all.2.1⟩⟩
  by_cases inside : b.Admits 0
  · rw [if_pos (viable.mpr inside)]
    refine Or.inr ⟨inside, g, rfl, zero_, ?_⟩
    unfold integerValue
    rw [zero_, numAbs, if_neg (by decide), if_neg (by decide), Nat.cast_zero, neg_zero, ite_self]
  · rw [if_neg fun yes => inside (viable.mp yes)]
    exact Or.inl ⟨rfl, inside⟩

theorem in_bounds_admits {f : Sframe} {x : ℤ} (value : integerValue f = some x) (inside : b.Admits x) :
    integerInBounds b.numMin b.numMax f = true := by
  unfold integerInBounds
  rw [value]
  exact inside.1

/-- Behind a zero in the bounds the number ends, and every digit is taken. -/
theorem take_overrun {g : Sframe} (zero_ : g.num = .zero) (value : integerValue g = some 0)
    (inside : b.Admits 0) (rest : Bytes) :
    rest.foldlM (integerTakeByte b.numMin b.numMax) g = some g := by
  induction rest with
  | nil => rfl
  | cons c rest induction =>
      have stay : integerTakeByte b.numMin b.numMax g c = some g := by
        have ends : numByte c .zero true = .error true := rfl
        unfold integerTakeByte
        rw [zero_, ends]
        apply if_pos
        rw [in_bounds_admits value inside]
        rfl
      rw [List.foldlM_cons, stay]
      exact induction

/-- A digit is taken when the number it makes can be carried into the bounds. -/
theorem take_digit {neg : Bool} {digits : Bytes} {f : Sframe}
    (reads : Reads neg digits f) {c : UInt8} (digit : isDigit c = true)
    (begun : Begun (digits ++ [c])) :
    ((integerTakeByte b.numMin b.numMax f c).isSome = true ↔
        ∃ m, b.ReachesWith neg (Decimal.value (digits ++ [c])) m) ∧
      ∀ after, integerTakeByte b.numMin b.numMax f c = some after →
        Reads neg (digits ++ [c]) after := by
  have range := digit_range digit
  have num : f.num = .start ∨ f.num = .minus ∨ f.num = .int := by
    rw [reads.num]
    split
    · cases neg with
      | true => exact Or.inr (Or.inl rfl)
      | false => exact Or.inl rfl
    · exact Or.inr (Or.inr rfl)
  have lead : ¬(f.num ≠ .int ∧ c = zero) := by
    rintro ⟨other, leads⟩
    have nothing : digits = [] := by
      by_contra some_
      rw [reads.num, if_neg some_] at other
      exact other rfl
    apply begun.lead
    rw [nothing, leads]
    rfl
  have value : f.numAbs * 10 + (c.toNat - 0x30) = Decimal.value (digits ++ [c]) := by
    rw [Decimal.value_snoc, reads.numAbs]
  have sign : decide ((if f.sign = 0 then 1 else f.sign) < 0) = neg := by
    rw [reads.sign]
    cases neg with
    | true => rfl
    | false =>
        rw [if_neg Bool.false_ne_true]
        split <;> rfl
  have large := safe_ten f.numAbs (c.toNat - 0x30) (by omega)
  have outgrown : safeInteger < (Decimal.value (digits ++ [c]) : ℤ) →
      ¬∃ m, b.ReachesWith neg (Decimal.value (digits ++ [c])) m := by
    rintro beyond ⟨m, reaches⟩
    have fits := reaches_small reaches
    have one : 1 ≤ 10 ^ m := Nat.one_le_pow m 10 (by omega)
    have product := Nat.mul_le_mul_left (Decimal.value (digits ++ [c])) one
    omega
  unfold integerTakeByte
  rw [num_byte_digit digit num, if_neg lead]
  dsimp only
  rw [if_neg fun both => digit_not_minus digit both.2, if_pos digit, value]
  rw [value] at large
  by_cases high : (f.numAbs : ℤ) > safeInteger / 10
  · rw [if_pos high]
    refine ⟨⟨(fun never => by cases never), fun reaches => absurd reaches (outgrown (large high))⟩, ?_⟩
    intro after never
    cases never
  rw [if_neg high]
  by_cases beyond : (Decimal.value (digits ++ [c]) : ℤ) > safeInteger
  · rw [if_pos beyond]
    refine ⟨⟨(fun never => by cases never), fun reaches => absurd reaches (outgrown beyond)⟩, ?_⟩
    intro after never
    cases never
  rw [if_neg beyond]
  generalize taken : ({ f with
    num := .int, numAbs := Decimal.value (digits ++ [c]),
    sign := if f.sign = 0 then 1 else f.sign } : Sframe) = g
  have numAbs : g.numAbs = Decimal.value (digits ++ [c]) := by rw [← taken]
  have viable := @prefix_viable_iff b neg g (by rw [← taken]) (by
      rw [← taken]
      exact sign) (by
      rw [numAbs]
      exact begun.positive) (by
      rw [numAbs]
      omega)
  rw [numAbs] at viable
  constructor
  · rw [← viable]
    cases integerPrefixViable b.numMin b.numMax g <;> exact Iff.rfl
  · intro after some_
    by_cases reaches : integerPrefixViable b.numMin b.numMax g = true
    · rw [if_pos reaches] at some_
      cases some_
      refine ⟨numAbs, ?_, ?_⟩
      · rw [if_neg (List.append_ne_nil_of_right_ne_nil _ (List.cons_ne_nil _ _)), ← taken]
      · rw [← taken]
        show (if f.sign = 0 then 1 else f.sign) = _
        rw [reads.sign, if_neg (List.append_ne_nil_of_right_ne_nil _ (List.cons_ne_nil _ _))]
        cases neg with
        | true => rfl
        | false =>
            rw [if_neg Bool.false_ne_true]
            split <;> rfl
    · rw [if_neg reaches] at some_
      cases some_

theorem reaches_front {neg : Bool} {p d m : Nat} (digit : d ≤ 9)
    (reaches : b.ReachesWith neg (p * 10 + d) m) : b.ReachesWith neg p (m + 1) := by
  rcases reaches with ⟨s, short, inside⟩
  refine ⟨d * 10 ^ m + s, ?_, ?_⟩
  · calc
      d * 10 ^ m + s < d * 10 ^ m + 10 ^ m := Nat.add_lt_add_left short _
      _ = (d + 1) * 10 ^ m := (Nat.succ_mul d _).symm
      _ ≤ 10 * 10 ^ m := Nat.mul_le_mul_right _ (by omega)
      _ = 10 ^ (m + 1) := (Nat.pow_succ').symm
  · have same : p * 10 ^ (m + 1) + (d * 10 ^ m + s) = (p * 10 + d) * 10 ^ m + s := by
      rw [Nat.pow_succ', Nat.add_mul, Nat.mul_assoc, Nat.add_assoc]
    rw [same]
    exact inside

theorem begun_front {digits : Bytes} {c : UInt8} (begun : Begun (digits ++ [c])) :
    digits = [] ∨ Begun digits := by
  cases digits with
  | nil => exact Or.inl rfl
  | cons d digits =>
      refine Or.inr ⟨List.cons_ne_nil _ _, ?_, begun.lead⟩
      intro other inside
      exact begun.digit other (List.mem_append_left _ inside)

/-- The reader over digits that zero does not lead. -/
theorem take_digits {neg : Bool} {f : Sframe} (reads : Reads neg [] f)
    (digits : Bytes) (begun : digits = [] ∨ Begun digits) :
    ((digits.foldlM (integerTakeByte b.numMin b.numMax) f).isSome = true ↔
        digits = [] ∨ ∃ m, b.ReachesWith neg (Decimal.value digits) m) ∧
      ∀ after, digits.foldlM (integerTakeByte b.numMin b.numMax) f = some after →
        Reads neg digits after := by
  induction digits using List.reverseRecOn with
  | nil =>
      refine ⟨⟨fun _ => Or.inl rfl, fun _ => rfl⟩, ?_⟩
      intro after same
      cases same
      exact reads
  | append_singleton digits c induction =>
      have some_ : digits ++ [c] ≠ [] := List.append_ne_nil_of_right_ne_nil _ (List.cons_ne_nil _ _)
      have whole : Begun (digits ++ [c]) := begun.resolve_left some_
      have digit := whole.digit c (List.mem_append_right _ List.mem_cons_self)
      have range := digit_range digit
      rcases induction (begun_front whole) with ⟨fits, frames⟩
      rw [List.foldlM_append]
      cases front : digits.foldlM (integerTakeByte b.numMin b.numMax) f with
      | none =>
          rw [front] at fits
          constructor
          · constructor
            · intro never
              cases never
            · rintro (nothing | ⟨m, reaches⟩)
              · exact absurd nothing some_
              · rw [Decimal.value_snoc] at reaches
                exact fits.mpr (Or.inr ⟨m + 1, reaches_front (by omega) reaches⟩)
          · intro after never
            cases never
      | some before =>
          have step := @take_digit b _ _ _ (frames before front) c digit whole
          have single : (some before >>= fun g => [c].foldlM (integerTakeByte b.numMin b.numMax) g) =
              integerTakeByte b.numMin b.numMax before c := Option.bind_fun_some _
          rw [single]
          constructor
          · rw [step.1]
            exact ⟨Or.inr, fun either => either.resolve_left some_⟩
          · exact step.2

/-- What stands before the digits. -/
theorem sign_reads (b : IntBounds) (neg : Bool) :
    ((b.take (signed neg [])).isSome = true ↔ b.signTaken neg = true) ∧
      ∀ f, b.take (signed neg []) = some f → Reads neg [] f := by
  cases neg with
  | false =>
      refine ⟨⟨fun _ => rfl, fun _ => rfl⟩, ?_⟩
      intro f same
      cases same
      exact ⟨rfl, rfl, rfl⟩
  | true =>
      have step : b.take [minus] = integerTakeByte b.numMin b.numMax b.begin minus :=
        Option.bind_fun_some _
      show ((b.take [minus]).isSome = true ↔ (b.numMin.all fun low => decide (low < 0)) = true) ∧
        ∀ f, b.take [minus] = some f → _
      rw [step]
      unfold integerTakeByte
      rw [show numByte minus b.begin.num true = .ok .minus from rfl]
      dsimp only
      rw [if_pos ⟨rfl, rfl⟩]
      by_cases negative : (b.numMin.all fun low => decide (low < 0)) = true
      · rw [if_pos negative]
        refine ⟨⟨fun _ => negative, fun _ => rfl⟩, ?_⟩
        intro f same
        cases same
        exact ⟨rfl, rfl, rfl⟩
      · rw [if_neg negative]
        refine ⟨⟨(fun never => by cases never), fun yes => absurd yes negative⟩, ?_⟩
        intro f never
        cases never

theorem take_signed (neg : Bool) (digits : Bytes) : b.take (signed neg digits) =
    (b.take (signed neg [])).bind fun f => digits.foldlM (integerTakeByte b.numMin b.numMax) f := by
  rw [show signed neg digits = signed neg [] ++ digits by rw [signed_append, List.nil_append]]
  unfold IntBounds.take
  rw [List.foldlM_append]
  rfl

/-- The digits of a spelling: none, a leading zero, or a number that can go on. -/
theorem digits_cases {digits : Bytes} (digit : ∀ c ∈ digits, isDigit c = true) :
    digits = [] ∨ (∃ rest, digits = zero :: rest) ∨ Begun digits := by
  cases digits with
  | nil => exact Or.inl rfl
  | cons c rest =>
      by_cases leads : c = zero
      · exact Or.inr (Or.inl ⟨rest, by rw [leads]⟩)
      · exact Or.inr (Or.inr ⟨List.cons_ne_nil _ _, digit, fun same => leads (Option.some.inj same)⟩)

/-- The reader of a number that zero does not lead is exact. -/
theorem take_begun {neg : Bool} {digits : Bytes} (begun : Begun digits) :
    ((b.take (signed neg digits)).isSome = true ↔ b.Extends (signed neg digits)) ∧
      ∀ f, b.take (signed neg digits) = some f → Reads neg digits f := by
  have sign := sign_reads b neg
  rw [take_signed, extends_begun begun]
  cases before : b.take (signed neg []) with
  | none =>
      constructor
      · constructor
        · intro never
          cases never
        · rintro ⟨m, reaches⟩
          have taken := sign.1.mpr (sign_of_reaches begun.positive reaches)
          rw [before] at taken
          cases taken
      · intro f never
        cases never
  | some f =>
      have run := @take_digits b _ _ (sign.2 f before) digits (Or.inr begun)
      rw [Option.bind_some]
      constructor
      · rw [run.1]
        exact ⟨fun either => either.resolve_left begun.some_, Or.inr⟩
      · exact run.2

/-- A number that zero leads is taken, whatever follows, where zero is in the bounds. -/
theorem take_leading {neg : Bool} {rest : Bytes} :
    ((b.take (signed neg (zero :: rest))).isSome = true ↔ b.Admits 0 ∧ b.signTaken neg = true) ∧
      ∀ f, b.take (signed neg (zero :: rest)) = some f →
        integerInBounds b.numMin b.numMax f = true := by
  have sign := sign_reads b neg
  rw [take_signed]
  cases before : b.take (signed neg []) with
  | none =>
      constructor
      · constructor
        · intro never
          cases never
        · rintro ⟨_, taken⟩
          have some_ := sign.1.mpr taken
          rw [before] at some_
          cases some_
      · intro f never
        cases never
  | some f =>
      have taken : b.signTaken neg = true := sign.1.mp (by
        rw [before]
        rfl)
      rw [Option.bind_some, List.foldlM_cons]
      rcases @take_zero b neg f (sign.2 f before) with ⟨refused, outside⟩ | ⟨inside, g, some_, zero_, value⟩
      · rw [refused]
        refine ⟨⟨(fun never => by cases never), fun both => absurd both.1 outside⟩, ?_⟩
        intro g never
        cases never
      · have stay : (some g >>= fun g => rest.foldlM (integerTakeByte b.numMin b.numMax) g) = some g :=
          take_overrun zero_ value inside rest
        rw [some_, stay]
        refine ⟨⟨fun _ => ⟨inside, taken⟩, fun _ => rfl⟩, ?_⟩
        intro after same
        cases same
        exact in_bounds_admits value inside

/-! ## The closer -/

/-- The target of the closer is in its range and in the bounds, and the least there. -/
theorem target_admitted {neg : Bool} {p m : Nat} (small : ((p * 10 ^ m : Nat) : ℤ) ≤ safeInteger)
    {target : ℤ} (meets : rangesIntersect (prefixRange neg p (10 ^ m)).1
      (prefixRange neg p (10 ^ m)).2 (wantLo b.numMin) (wantHi b.numMax) = true)
    (aimed : target = min (if (prefixRange neg p (10 ^ m)).1 < wantLo b.numMin then wantLo b.numMin
      else (prefixRange neg p (10 ^ m)).1) (prefixRange neg p (10 ^ m)).2) :
    target.natAbs - p * 10 ^ m < 10 ^ m ∧
      b.Admits (signedValue neg (p * 10 ^ m + (target.natAbs - p * 10 ^ m))) ∧
        ∀ t < 10 ^ m, b.Admits (signedValue neg (p * 10 ^ m + t)) →
          signedValue neg (p * 10 ^ m + (target.natAbs - p * 10 ^ m)) ≤
            signedValue neg (p * 10 ^ m + t) := by
  have order := want_ordered b
  have one : 1 ≤ 10 ^ m := Nat.one_le_pow m 10 (by omega)
  have product : ((p : ℤ) * ((10 ^ m : Nat) : ℤ)) = ((p * 10 ^ m : Nat) : ℤ) := (Nat.cast_mul _ _).symm
  unfold rangesIntersect prefixRange at meets
  unfold prefixRange at aimed
  simp only [Bool.and_eq_true, decide_eq_true_eq, product] at meets aimed
  simp only [admits_iff]
  generalize p * 10 ^ m = low at small meets aimed product
  generalize 10 ^ m = scale at one meets aimed product
  generalize wantLo b.numMin = lo at order meets aimed
  generalize wantHi b.numMax = hi at order meets aimed
  cases neg with
  | true =>
      simp only [if_true] at meets aimed
      simp only [signedValue, if_true]
      split at aimed
      · exact ⟨by omega, by omega, fun t short inside => by omega⟩
      · exact ⟨by omega, by omega, fun t short inside => by omega⟩
  | false =>
      simp only [Bool.false_eq_true, if_false] at meets aimed
      simp only [signedValue, Bool.false_eq_true, if_false]
      split at aimed
      · exact ⟨by omega, by omega, fun t short inside => by omega⟩
      · exact ⟨by omega, by omega, fun t short inside => by omega⟩

/-- The closer writes the fewest digits that reach the bounds, fifteen at most. -/
theorem close_from_writes {neg : Bool} {p m : Nat} (few : m ≤ 15) (reaches : b.ReachesWith neg p m)
    (rounds k : Nat) (least : k ≤ m) (most : m < k + rounds) :
    ∃ j s, k ≤ j ∧ j ≤ m ∧ s < 10 ^ j ∧ b.Admits (signedValue neg (p * 10 ^ j + s)) ∧
      closeIntegerFrom neg p (wantLo b.numMin) (wantHi b.numMax) rounds k (10 ^ k) =
        Decimal.pad j s ∧ (∀ i, k ≤ i → i < j → ¬b.ReachesWith neg p i) ∧
          ∀ t < 10 ^ j, b.Admits (signedValue neg (p * 10 ^ j + t)) →
            signedValue neg (p * 10 ^ j + s) ≤ signedValue neg (p * 10 ^ j + t) := by
  induction rounds generalizing k with
  | zero => omega
  | succ rounds induction =>
      have scale : (0 : ℤ) < ((10 ^ k : Nat) : ℤ) := by
        have one := Nat.one_le_pow k 10 (by omega)
        omega
      have small : ((p * 10 ^ k : Nat) : ℤ) ≤ safeInteger := by
        have fits := reaches_small reaches
        have longer : p * 10 ^ k ≤ p * 10 ^ m :=
          Nat.mul_le_mul_left p (Nat.pow_le_pow_right (by omega) least)
        omega
      have meets := @ranges_meet b neg p k small
      unfold closeIntegerFrom
      rw [if_neg]
      · dsimp only
        by_cases here : b.ReachesWith neg p k
        · rw [if_pos (meets.mpr here)]
          have target := target_admitted small (meets.mpr here) rfl
          exact ⟨k, _, Nat.le_refl k, least, target.1, target.2.1, rfl,
            fun i above below => by omega, target.2.2⟩
        · have next : k < m := by
            apply lt_of_le_of_ne least
            intro same
            rw [same] at here
            exact here reaches
          rw [if_neg fun intersect => here (meets.mp intersect), if_neg]
          · rw [← Nat.pow_succ]
            rcases induction (k + 1) next (by omega) with
              ⟨j, s, above, below, short, inside, written, first, lowest⟩
            refine ⟨j, s, by omega, below, short, inside, written, ?_, lowest⟩
            intro i from_ before
            by_cases same : i = k
            · rw [same]
              exact here
            · exact first i (by omega) before
          · have bound : 10 ^ k ≤ 10 ^ 14 := Nat.pow_le_pow_right (by omega) (by omega)
            unfold safeInteger
            omega
      · rw [gt_iff_lt, not_lt, Int.le_ediv_iff_mul_le scale, ← Nat.cast_mul]
        exact small

theorem value_reads {neg : Bool} {digits : Bytes} {f : Sframe} (reads : Reads neg digits f)
    (some_ : digits ≠ []) (small : (Decimal.value digits : ℤ) ≤ safeInteger) :
    integerValue f = some (signedValue neg (Decimal.value digits)) := by
  have num : f.num = .int := by rw [reads.num, if_neg some_]
  unfold integerValue
  rw [num, if_neg (by decide), reads.numAbs, if_neg (not_lt.mpr small), reads.sign]
  unfold signedValue
  cases neg with
  | true => rfl
  | false => rw [if_neg Bool.false_ne_true, if_neg some_, if_neg (by decide), if_neg Bool.false_ne_true]

theorem sign_of_reads {neg : Bool} {digits : Bytes} {f : Sframe} (reads : Reads neg digits f) :
    decide (f.sign < 0) = neg := by
  rw [reads.sign]
  cases neg with
  | true => rfl
  | false =>
      rw [if_neg Bool.false_ne_true]
      split <;> rfl

/-- Behind a number the closer writes as many digits as lead into the bounds. -/
theorem close_begun {neg : Bool} {digits : Bytes} (begun : Begun digits) {f : Sframe}
    (reads : Reads neg digits f) (extends' : b.Extends (signed neg digits))
    (outside : integerInBounds b.numMin b.numMax f = false) :
    ∃ x, JsonInteger (signed neg digits ++ closeInteger b.numMin b.numMax f) x ∧ b.Admits x := by
  rcases (extends_begun begun).mp extends' with ⟨m, reaches⟩
  have positive := begun.positive
  have fits := reaches_small reaches
  have few : m ≤ 15 := by
    by_contra long
    have wide : 10 ^ 16 ≤ 10 ^ m := Nat.pow_le_pow_right (by omega) (by omega)
    have product := Nat.mul_le_mul positive wide
    unfold safeInteger at fits
    omega
  have some_ : 1 ≤ m := by
    by_contra none'
    have zero' : m = 0 := by omega
    rw [zero'] at reaches fits
    have inside := in_bounds_admits (value_reads reads begun.some_ (by omega))
      (reaches_admits.mp reaches)
    rw [inside] at outside
    cases outside
  rcases close_from_writes few reaches 18 1 some_ (by omega) with
    ⟨j, s, above, below, short, inside, written, _⟩
  refine ⟨_, ⟨neg, digits ++ Decimal.pad j s, begun.numeral fun c here => Decimal.pad_digit here, ?_,
    rfl⟩, ?_⟩
  · unfold closeInteger
    rw [if_neg (by rw [outside]; exact Bool.false_ne_true), sign_of_reads reads, reads.numAbs]
    rw [Nat.pow_one] at written
    rw [written, signed_append]
  · rw [Decimal.value_append, Decimal.pad_length (by omega) short, Decimal.value_pad]
    exact inside

/-- Behind a minus sign the closer writes a number that zero does not lead. -/
theorem close_minus (near : ∀ high ∈ b.numMax, -(10 : ℤ) ^ 15 < high) {f : Sframe}
    (reads : Reads true [] f) (taken : b.signTaken true = true) :
    ∃ x, JsonInteger (minus :: closeIntegerFrom true f.numAbs (wantLo b.numMin) (wantHi b.numMax)
      18 1 10) x ∧ b.Admits x := by
  have order := want_ordered b
  have below : wantLo b.numMin < 0 := low_iff.mp taken
  have close : -(10 : ℤ) ^ 15 < wantHi b.numMax := by
    cases most : b.numMax with
    | none =>
        show -(10 : ℤ) ^ 15 < safeInteger
        decide
    | some high => exact near high most
  have nothing : f.numAbs = 0 := reads.numAbs
  have reaches : b.ReachesWith true f.numAbs 15 := by
    -- the largest negative integer in the bounds
    refine ⟨(min (wantHi b.numMax) (-1)).natAbs, by omega, ?_⟩
    rw [admits_iff, nothing]
    unfold signedValue
    rw [if_pos rfl]
    omega
  rcases close_from_writes (le_refl 15) reaches 18 1 (by omega) (by omega) with
    ⟨j, s, above, most, short, inside, written, first, least⟩
  rw [nothing, Nat.zero_mul, Nat.zero_add] at inside
  rw [nothing, Nat.zero_mul] at least
  have positive : 1 ≤ s := by
    by_contra none'
    have nought : s = 0 := by omega
    rw [nought] at inside least
    have sound := (admits_iff _).mp inside
    have here := least 1 (Nat.one_lt_pow (by omega) (by omega)) (by
      rw [admits_iff]
      unfold signedValue
      rw [if_pos rfl]
      have value : signedValue true 0 = 0 := rfl
      rw [value] at sound
      omega)
    exact absurd here (by decide)
  have full : 10 ^ (j - 1) ≤ s := by
    by_cases single : j = 1
    · rw [single]
      exact positive
    · by_contra small
      apply first (j - 1) (by omega) (by omega)
      refine ⟨s, by omega, ?_⟩
      rw [nothing, Nat.zero_mul, Nat.zero_add]
      exact inside
  have some_ : s ≠ 0 := by
    have one := Nat.one_le_pow (j - 1) 10 (by omega)
    omega
  have printed := Decimal.pad_full full
  rw [show j - 1 + 1 = j by omega] at printed
  rw [Nat.pow_one, printed] at written
  rw [written]
  refine ⟨_, ⟨true, Decimal.ofNat s, ⟨Decimal.of_nat_ne_nil s, fun c here =>
    Decimal.of_nat_digit here, fun leads => absurd leads (Decimal.of_nat_head some_)⟩, rfl, rfl⟩, ?_⟩
  rw [Decimal.value_of_nat]
  exact inside

/-! ## Where the bounds are exact -/

/-- Nothing is written where no short number is in the bounds. -/
theorem close_from_nothing {neg : Bool} {p : Nat} (rounds k : Nat) (early : k ≤ 15)
    (never : ∀ m, k ≤ m → m ≤ 15 → ¬b.ReachesWith neg p m) :
    closeIntegerFrom neg p (wantLo b.numMin) (wantHi b.numMax) rounds k (10 ^ k) = [] := by
  induction rounds generalizing k with
  | zero => rfl
  | succ rounds induction =>
      have scale : (0 : ℤ) < ((10 ^ k : Nat) : ℤ) := by
        have one := Nat.one_le_pow k 10 (by omega)
        omega
      unfold closeIntegerFrom
      by_cases small : ((p * 10 ^ k : Nat) : ℤ) ≤ safeInteger
      · rw [if_neg]
        · dsimp only
          rw [if_neg fun intersect => never k (le_refl k) early ((ranges_meet small).mp intersect)]
          by_cases last : k = 15
          · rw [last, if_pos (by decide)]
          · rw [if_neg]
            · rw [← Nat.pow_succ]
              exact induction (k + 1) (by omega) fun m least most => never m (by omega) most
            · have bound : 10 ^ k ≤ 10 ^ 14 := Nat.pow_le_pow_right (by omega) (by omega)
              unfold safeInteger
              omega
        · rw [gt_iff_lt, not_lt, Int.le_ediv_iff_mul_le scale, ← Nat.cast_mul]
          exact small
      · apply if_pos
        by_contra within
        rw [gt_iff_lt, not_lt, Int.le_ediv_iff_mul_le scale, ← Nat.cast_mul] at within
        exact small within

/-- Fifteen digits behind a minus sign do not reach bounds this far from zero. -/
theorem far_silent {high : ℤ} (most : high ∈ b.numMax) (far : high ≤ -(10 : ℤ) ^ 15) {f : Sframe}
    (reads : Reads true [] f) : closeInteger b.numMin b.numMax f = [] := by
  have bound : wantHi b.numMax = high := by
    rw [Option.mem_def.mp most]
    rfl
  have nothing : f.numAbs = 0 := reads.numAbs
  unfold closeInteger
  split
  · rfl
  · rw [sign_of_reads reads]
    apply close_from_nothing 18 1 (by omega)
    rintro m _ few ⟨s, short, inside⟩
    have wide : 10 ^ m ≤ 10 ^ 15 := Nat.pow_le_pow_right (by omega) few
    rw [nothing, Nat.zero_mul, Nat.zero_add] at inside
    have within := ((admits_iff _).mp inside).2.1
    have value : signedValue true s = -(s : ℤ) := rfl
    omega

theorem minus_incomplete {f : Sframe} (reads : Reads true [] f) :
    integerInBounds b.numMin b.numMax f = false := by
  have num : f.num = .minus := reads.num
  unfold integerInBounds integerValue
  rw [num]
  rfl

/-- Where the lower bound is zero, zero needs a sign that is not taken. -/
theorem zero_least : b.numMin = some 0 ↔ b.signTaken true = false ∧ b.Admits 0 := by
  have order := want_ordered b
  have low : b.signTaken true = false ↔ 0 ≤ wantLo b.numMin := by
    rw [← not_lt, ← low_iff, Bool.not_eq_true]
    rfl
  rw [low, admits_iff]
  cases least : b.numMin with
  | none =>
      constructor
      · intro never
        cases never
      · rintro ⟨above, _⟩
        exact absurd above (by decide)
  | some bound =>
      rw [least] at order
      rw [show wantLo (some bound) = bound from rfl] at order ⊢
      rw [Option.some.injEq]
      omega

/-- The lone minus sign. -/
theorem minus_exact_iff (b : IntBounds) : b.Exact [minus] ↔ ¬b.Slips true [] := by
  have sign := sign_reads b true
  constructor
  · rintro ⟨reader, closer⟩ (⟨leads, _⟩ | ⟨_, _, least⟩ | ⟨_, _, high, most, far⟩)
    · cases leads
    · rcases zero_least.mp least with ⟨refused, inside⟩
      have taken := sign.1.mp (reader.mpr (extends_minus.mpr (Or.inr inside)))
      rw [refused] at taken
      cases taken
    · have taken : b.signTaken true = true := by
        have order := want_ordered b
        have bound : wantHi b.numMax = high := by
          rw [Option.mem_def.mp most]
          rfl
        exact low_iff.mpr (by omega)
      rcases Option.isSome_iff_exists.mp (sign.1.mpr taken) with ⟨f, some_⟩
      have reads := sign.2 f some_
      rcases closer f (List.cons_ne_nil _ _) some_ (minus_incomplete reads) with
        ⟨x, ⟨neg, digits, numeral, spelled, _⟩, _⟩
      rw [far_silent most far reads, List.append_nil] at spelled
      rcases @signed_inj true neg [] digits (fun absurd => by cases absurd) numeral.2.1 spelled with
        ⟨_, same⟩
      exact numeral.1 same.symm
  · intro sound
    have least : b.numMin ≠ some 0 := fun least => sound (Or.inr (Or.inl ⟨rfl, Or.inl rfl, least⟩))
    have near : ∀ high ∈ b.numMax, -(10 : ℤ) ^ 15 < high := by
      intro high most
      by_contra far
      exact sound (Or.inr (Or.inr ⟨rfl, rfl, high, most, not_lt.mp far⟩))
    constructor
    · show (b.take (signed true [])).isSome = true ↔ _
      rw [sign.1, extends_minus]
      refine ⟨Or.inl, fun either => either.elim id fun inside => ?_⟩
      by_contra refused
      exact least (zero_least.mpr ⟨Bool.eq_false_iff.mpr refused, inside⟩)
    · intro f _ some_ outside
      have closed := close_minus near (sign.2 f some_) (sign.1.mp (by
        show (b.take [minus]).isSome = true
        rw [some_]
        rfl))
      unfold closeInteger
      rw [if_neg (by rw [outside]; exact Bool.false_ne_true), sign_of_reads (sign.2 f some_)]
      exact closed

/-- Zero, and what is written behind it. -/
theorem leading_exact_iff (b : IntBounds) (neg : Bool) (rest : Bytes) :
    b.Exact (signed neg (zero :: rest)) ↔ ¬b.Slips neg (zero :: rest) := by
  have read := @take_leading b neg rest
  unfold IntBounds.Exact
  rw [read.1, extends_zero]
  constructor
  · rintro ⟨reader, _⟩ (⟨_, long, inside, taken⟩ | ⟨sign, single, least⟩ | ⟨_, nothing, _⟩)
    · have alone := (reader.mp ⟨inside, taken⟩).1
      rw [alone] at long
      exact absurd long (by decide)
    · rcases zero_least.mp least with ⟨refused, inside⟩
      have alone : rest = [] := by
        rcases single with nothing | same
        · cases nothing
        · exact List.tail_eq_of_cons_eq same
      have taken := (reader.mpr ⟨alone, inside⟩).2
      rw [sign, refused] at taken
      cases taken
    · cases nothing
  · intro sound
    constructor
    · constructor
      · rintro ⟨inside, taken⟩
        refine ⟨?_, inside⟩
        by_contra more
        have some_ := List.length_pos_iff.mpr more
        exact sound (Or.inl ⟨rfl, Nat.succ_le_succ some_, inside, taken⟩)
      · rintro ⟨alone, inside⟩
        refine ⟨inside, ?_⟩
        by_contra refused
        cases neg with
        | false => exact refused rfl
        | true =>
            apply sound
            refine Or.inr (Or.inl ⟨rfl, Or.inr (by rw [alone]), ?_⟩)
            exact zero_least.mpr ⟨Bool.eq_false_iff.mpr refused, inside⟩
    · intro f _ some_ outside
      rw [read.2 f some_] at outside
      cases outside

/-- Spellings are taken, and finished, exactly, but where they slip. -/
theorem integers_exact_iff (b : IntBounds) (neg : Bool) {digits : Bytes}
    (digit : ∀ c ∈ digits, isDigit c = true) :
    b.Exact (signed neg digits) ↔ ¬b.Slips neg digits := by
  rcases digits_cases digit with nothing | ⟨rest, leads⟩ | begun
  · rw [nothing]
    cases neg with
    | true => exact minus_exact_iff b
    | false =>
        constructor
        · rintro _ (⟨leads, _⟩ | ⟨sign, _⟩ | ⟨sign, _⟩)
          · cases leads
          · cases sign
          · cases sign
        · intro _
          exact ⟨⟨fun _ => admits_some b, fun _ => rfl⟩, fun f some_ => absurd rfl some_⟩
  · rw [leads]
    exact leading_exact_iff b neg rest
  · have read := @take_begun b neg digits begun
    constructor
    · rintro _ (⟨leads, _⟩ | ⟨_, nothing | leads, _⟩ | ⟨_, nothing, _⟩)
      · exact begun.lead leads
      · exact begun.some_ nothing
      · exact begun.lead (by
          rw [leads]
          rfl)
      · exact begun.some_ nothing
    · intro _
      refine ⟨read.1, fun f _ some_ outside => ?_⟩
      exact close_begun begun (read.2 f some_) (read.1.mp (by rw [some_]; rfl)) outside

/-- A digit behind a zero is taken where nothing bounds the integer. -/
theorem unbounded_zero_inexact : ¬unbounded.Exact [zero, one] := by
  intro exact'
  exact (leading_exact_iff unbounded false [one]).mp exact'
    (Or.inl ⟨rfl, by decide, ⟨rfl, by decide, by decide⟩, rfl⟩)

/-- From 10 to 99. -/
def twoDigits : IntBounds where
  numMin := some 10
  numMax := some 99
  lowSafe := fun low found => by
    cases found
    decide
  highSafe := fun high found => by
    cases found
    decide
  ordered := fun low least high most => by
    cases least
    cases most
    decide

/-- A lone `4` is too small, and what is written behind it leaves an integer of the bounds. -/
theorem lone_digit_exact : twoDigits.Exact [52] ∧ ∃ f, twoDigits.take [52] = some f ∧
    ∃ x, JsonInteger ([52] ++ closeInteger twoDigits.numMin twoDigits.numMax f) x ∧
      twoDigits.Admits x := by
  have exact' : twoDigits.Exact [52] := by
    apply (@integers_exact_iff twoDigits false [52] (List.forall_mem_singleton.mpr rfl)).mpr
    rintro (⟨leads, _⟩ | ⟨sign, _⟩ | ⟨sign, _⟩)
    · exact absurd leads (by decide)
    · cases sign
    · cases sign
  obtain ⟨f, taken⟩ : ∃ f, twoDigits.take [52] = some f := ⟨_, rfl⟩
  have short : integerInBounds twoDigits.numMin twoDigits.numMax f = false := by
    cases taken
    decide
  exact ⟨exact', f, taken, exact'.2 f (List.cons_ne_nil _ _) taken short⟩

end GridcoreRunner.Schema
