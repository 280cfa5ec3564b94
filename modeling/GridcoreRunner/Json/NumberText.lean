import GridcoreRunner.Decimal
import GridcoreRunner.Json.Doubles
import Mathlib.Tactic.FieldSimp

/-!
# Numbers as they are printed

`%lld` and `%.*g`, and what the printed text is: a numeral of the grammar that spells the
integer, or the number rounded to its first digits.
-/

namespace GridcoreRunner.Json

set_option autoImplicit false

/-! ## Printing -/

/-- Without the zeros at the end. -/
def stripZeros (digits : Bytes) : Bytes := (digits.reverse.dropWhile (· == zero)).reverse

/-- A point and the digits behind it, if there are any. -/
def pointed (digits : Bytes) : Bytes := if digits.isEmpty then [] else dot :: digits

/-- The first `p` digits of a positive number as one integer, and the power of ten of the
first of them. -/
def firstDigits (p : Nat) (x : ℚ) : Nat × ℤ :=
  let top := Int.log 10 x
  let digits := (nearestInt (x / (10 : ℚ) ^ (top - (p - 1)))).toNat
  if digits = 10 ^ p then (10 ^ (p - 1), top + 1) else (digits, top)

/-- `%.*g` of a positive number. -/
def positiveText (p : Nat) (x : ℚ) : Bytes :=
  let (digits, top) := firstDigits p x
  let text := Decimal.ofNat digits
  if -4 ≤ top ∧ top < p then
    if 0 ≤ top then
      text.take (top.toNat + 1) ++ pointed (stripZeros (text.drop (top.toNat + 1)))
    else zero :: pointed (stripZeros (List.replicate (-top - 1).toNat zero ++ text))
  else
    text.take 1 ++ (pointed (stripZeros (text.drop 1)) ++
      letterE :: (if top < 0 then minus else plus) :: Decimal.pad 2 top.natAbs)

/-- `%.*g`. -/
def generalText (p : Nat) (x : ℚ) : Bytes :=
  if x = 0 then [zero] else if x < 0 then minus :: positiveText p (-x) else positiveText p x

/-! ## What a numeral spells -/

theorem decimal_value (digits : Bytes) : decimal digits = Decimal.value digits := rfl

theorem take_digits {ds rest : Bytes} (digits : ∀ c ∈ ds, isDigit c = true) (ends : NoDigit rest) :
    (ds ++ rest).takeWhile isDigit = ds := by
  rw [List.takeWhile_append_of_pos digits]
  rcases rest with _ | ⟨c, rest⟩
  · rw [List.takeWhile_nil, List.append_nil]
  · rw [List.takeWhile_cons_of_neg (by rw [ends c rfl]; exact Bool.false_ne_true), List.append_nil]

/-- The exponent that is printed, if any, and the power it spells. -/
inductive Powers : Bytes → ℤ → Prop
  | none : Powers [] 0
  | up (ds : Bytes) : Powers (letterE :: plus :: ds) (decimal ds)
  | down (ds : Bytes) : Powers (letterE :: minus :: ds) (-decimal ds)

theorem Powers.head {expo : Bytes} {power : ℤ} (powers : Powers expo power) :
    expo = [] ∨ ∃ rest, expo = letterE :: rest := by
  cases powers with
  | none => exact Or.inl rfl
  | up ds => exact Or.inr ⟨_, rfl⟩
  | down ds => exact Or.inr ⟨_, rfl⟩

theorem Powers.noDigit {expo : Bytes} {power : ℤ} (powers : Powers expo power) : NoDigit expo := by
  intro c first
  rcases powers.head with none' | ⟨rest, same⟩
  · rw [none'] at first
    cases first
  · rw [same] at first
    cases first
    decide

/-- Behind the digits of the point nothing is left of the text but the exponent. -/
theorem after_point {fs expo : Bytes} {power : ℤ} (digits : ∀ c ∈ fs, isDigit c = true)
    (powers : Powers expo power) :
    (if (pointed fs ++ expo).head? = some dot then (pointed fs ++ expo).tail.takeWhile isDigit
      else []) = fs ∧
    ((pointed fs ++ expo).dropWhile fun c => c == dot || isDigit c) = expo ∧
      NoDigit (pointed fs ++ expo) := by
  have stays : (expo.dropWhile fun c => c == dot || isDigit c) = expo := by
    rcases powers.head with none' | ⟨rest, same⟩
    · rw [none']
      rfl
    · rw [same]
      exact List.dropWhile_cons_of_neg (by decide)
  unfold pointed
  rcases fs with _ | ⟨f, fs⟩
  · rw [List.isEmpty_nil, if_pos rfl, List.nil_append]
    refine ⟨if_neg ?_, stays, powers.noDigit⟩
    rcases powers.head with none' | ⟨rest, same⟩
    · rw [none']
      exact (Option.some_ne_none _).symm
    · rw [same, List.head?_cons, Option.some.injEq]
      decide
  · rw [List.isEmpty_cons, if_neg Bool.false_ne_true, List.cons_append]
    refine ⟨?_, ?_, ?_⟩
    · rw [List.head?_cons, if_pos rfl, List.tail_cons]
      exact take_digits digits powers.noDigit
    · rw [List.dropWhile_cons_of_pos (by decide), List.dropWhile_append_of_pos, stays]
      intro c inside
      rw [digits c inside, Bool.or_true]
    · intro c first
      cases first
      decide

theorem numeral_value {negative : Bool} {whole fs expo : Bytes} {power : ℤ} (some_ : whole ≠ [])
    (wholeDigits : ∀ c ∈ whole, isDigit c = true) (fractionDigits : ∀ c ∈ fs, isDigit c = true)
    (powers : Powers expo power) :
    numeralValue ((if negative then [minus] else []) ++ (whole ++ (pointed fs ++ expo))) =
      (if negative then -1 else 1) *
        ((decimal (whole ++ fs) : ℚ) * (10 : ℚ) ^ (power - fs.length)) := by
  obtain ⟨fraction, exponent, ends⟩ := after_point fractionDigits powers
  have front : ((if negative then [minus] else []) ++ (whole ++ (pointed fs ++ expo))).dropWhile
      (· == minus) = whole ++ (pointed fs ++ expo) := by
    rcases whole with _ | ⟨w, whole⟩
    · exact absurd rfl some_
    · have other : (w == minus) = false := by
        have digit := wholeDigits w List.mem_cons_self
        rw [beq_eq_false_iff_ne]
        intro same
        rw [same] at digit
        exact absurd digit (by decide)
      cases negative with
      | false =>
          rw [if_neg Bool.false_ne_true, List.nil_append, List.cons_append,
            List.dropWhile_cons_of_neg (by rw [other]; exact Bool.false_ne_true)]
      | true =>
          rw [if_pos rfl, List.singleton_append, List.dropWhile_cons_of_pos (by decide),
            List.cons_append, List.dropWhile_cons_of_neg (by rw [other]; exact Bool.false_ne_true)]
  have first : ((if negative then [minus] else []) ++ (whole ++ (pointed fs ++ expo))).head? =
      some minus ↔ negative = true := by
    cases negative with
    | true => simp
    | false =>
        rcases whole with _ | ⟨w, whole⟩
        · exact absurd rfl some_
        · simp only [Bool.false_eq_true, if_false, List.nil_append, List.cons_append,
            List.head?_cons, Option.some.injEq, iff_false]
          intro same
          have digit := wholeDigits w List.mem_cons_self
          rw [same] at digit
          exact absurd digit (by decide)
  unfold numeralValue
  dsimp only
  rw [front, take_digits wholeDigits ends, drop_digits wholeDigits ends, fraction, exponent]
  have scale : (if expo.tail.head? = some minus then -(decimal expo.tail.tail : ℤ)
      else if expo.tail.head? = some plus then decimal expo.tail.tail
      else decimal expo.tail) = power := by
    cases powers with
    | none => rfl
    | up ds => rfl
    | down ds => rfl
  rw [scale]
  by_cases sign : negative = true
  · rw [if_pos (first.mpr sign), if_pos sign, neg_one_mul]
  · rw [if_neg fun same => sign (first.mp same), if_neg sign, one_mul]

/-! ## Rounding to the first digits -/

/-- The number rounded to its first `p` digits. -/
def significant (p : Nat) (x : ℚ) : ℚ :=
  (if x < 0 then -1 else 1) * roundTo ((10 : ℚ) ^ (Int.log 10 |x| - (p - 1))) |x|

theorem ten_pow_pos (e : ℤ) : (0 : ℚ) < (10 : ℚ) ^ e := zpow_pos (by norm_num) e

theorem first_digits_spec {p : Nat} {x : ℚ} (some_ : 1 ≤ p) (positive : 0 < x) :
    10 ^ (p - 1) ≤ (firstDigits p x).1 ∧ (firstDigits p x).1 < 10 ^ p ∧
      ((firstDigits p x).1 : ℚ) * (10 : ℚ) ^ ((firstDigits p x).2 - (p - 1)) =
        roundTo ((10 : ℚ) ^ (Int.log 10 x - (p - 1))) x := by
  have unit := ten_pow_pos (Int.log 10 x - (p - 1))
  have low : (((10 ^ (p - 1) : ℕ) : ℤ) : ℚ) ≤ x / (10 : ℚ) ^ (Int.log 10 x - (p - 1)) := by
    rw [le_div_iff₀ unit]
    have start : (10 : ℚ) ^ Int.log 10 x ≤ x := by
      exact_mod_cast Int.zpow_log_le_self (b := 10) (by norm_num) positive
    have whole : (((10 ^ (p - 1) : ℕ) : ℤ) : ℚ) = (10 : ℚ) ^ ((p : ℤ) - 1) := by
      have cast : ((p - 1 : ℕ) : ℤ) = (p : ℤ) - 1 := by omega
      rw [← cast, zpow_natCast]
      push_cast
      rfl
    rw [whole, ← zpow_add₀ (by norm_num), add_sub_cancel]
    exact start
  have high : x / (10 : ℚ) ^ (Int.log 10 x - (p - 1)) ≤ (((10 ^ p : ℕ) : ℤ) : ℚ) := by
    rw [div_le_iff₀ unit]
    have limit : x < (10 : ℚ) ^ (Int.log 10 x + 1) := by
      exact_mod_cast Int.lt_zpow_succ_log_self (b := 10) (by norm_num) x
    have whole : (((10 ^ p : ℕ) : ℤ) : ℚ) = (10 : ℚ) ^ (p : ℤ) := by
      rw [zpow_natCast]
      push_cast
      rfl
    rw [whole, ← zpow_add₀ (by norm_num)]
    have sum : (p : ℤ) + (Int.log 10 x - (p - 1)) = Int.log 10 x + 1 := by ring
    rw [sum]
    exact le_of_lt limit
  have least := le_nearest_int low
  have most := nearest_int_le high
  have count : (((nearestInt (x / (10 : ℚ) ^ (Int.log 10 x - (p - 1)))).toNat : ℕ) : ℤ) =
      nearestInt (x / (10 : ℚ) ^ (Int.log 10 x - (p - 1))) := by
    apply Int.toNat_of_nonneg
    exact le_trans (by positivity) least
  have value : (((nearestInt (x / (10 : ℚ) ^ (Int.log 10 x - (p - 1)))).toNat : ℕ) : ℚ) =
      nearestInt (x / (10 : ℚ) ^ (Int.log 10 x - (p - 1))) := by
    exact_mod_cast count
  unfold firstDigits
  dsimp only
  rw [round_to_nearest, ← value]
  generalize (nearestInt (x / (10 : ℚ) ^ (Int.log 10 x - (p - 1)))).toNat = digits at *
  by_cases carry : digits = 10 ^ p
  · rw [if_pos carry]
    dsimp only
    refine ⟨Nat.le_refl _, Nat.pow_lt_pow_right (by omega) (by omega), ?_⟩
    have shift : Int.log 10 x + 1 - ((p : ℤ) - 1) = 1 + (Int.log 10 x - (p - 1)) := by ring
    have split : (10 : ℕ) ^ p = 10 ^ (p - 1) * 10 := by
      rw [← Nat.pow_succ, Nat.succ_eq_add_one, Nat.sub_add_cancel some_]
    rw [carry, shift, zpow_add₀ (by norm_num), split]
    push_cast
    ring
  · rw [if_neg carry]
    dsimp only
    exact ⟨by omega, by omega, rfl⟩

/-! ## The printed number -/

theorem strip_zeros_split (ds : Bytes) : ∃ k, ds = stripZeros ds ++ List.replicate k zero := by
  refine ⟨(ds.reverse.takeWhile (· == zero)).length, ?_⟩
  have zeros : ds.reverse.takeWhile (· == zero) =
      List.replicate (ds.reverse.takeWhile (· == zero)).length zero :=
    List.eq_replicate_of_mem fun c inside => by
      have same := List.mem_takeWhile_imp inside
      exact beq_iff_eq.mp same
  have parts := congrArg List.reverse
    (List.takeWhile_append_dropWhile (p := (· == zero)) (l := ds.reverse))
  rw [List.reverse_append, List.reverse_reverse] at parts
  conv_lhs => rw [← parts]
  rw [stripZeros, ← List.reverse_replicate, ← zeros]

/-- Zeros at the end of the fraction do not change the number. -/
theorem strip_zeros_value (whole ds : Bytes) (e : ℤ) :
    (decimal (whole ++ stripZeros ds) : ℚ) * (10 : ℚ) ^ (e - (stripZeros ds).length) =
      decimal (whole ++ ds) * (10 : ℚ) ^ (e - ds.length) := by
  obtain ⟨k, split⟩ := strip_zeros_split ds
  have length := congrArg List.length split
  rw [List.length_append, List.length_replicate] at length
  have value : decimal (whole ++ ds) = decimal (whole ++ stripZeros ds) * 10 ^ k := by
    conv_lhs => rw [split, ← List.append_assoc]
    rw [decimal_value, decimal_value, Decimal.value_append, Decimal.value_zeros,
      List.length_replicate, Nat.add_zero]
  have shift : e - ((stripZeros ds).length : ℤ) = k + (e - ds.length) := by
    rw [length]
    push_cast
    ring
  rw [value, shift, zpow_add₀ (by norm_num), zpow_natCast]
  push_cast
  ring

theorem strip_zeros_digits {ds : Bytes} (digits : ∀ c ∈ ds, isDigit c = true) :
    ∀ c ∈ stripZeros ds, isDigit c = true := by
  obtain ⟨k, split⟩ := strip_zeros_split ds
  intro c inside
  apply digits
  rw [split]
  exact List.mem_append_left _ inside

theorem pointed_fraction {fs : Bytes} (digits : ∀ c ∈ fs, isDigit c = true) :
    Fraction (pointed fs) := by
  unfold pointed
  rcases fs with _ | ⟨f, fs⟩
  · exact Or.inl rfl
  · exact Or.inr ⟨f :: fs, ⟨List.cons_ne_nil _ _, digits⟩, rfl⟩

/-- The parts of a printed number and what they spell together. -/
structure Printed (text : Bytes) (value : ℚ) where
  whole : Bytes
  fs : Bytes
  expo : Bytes
  power : ℤ
  spelled : text = whole ++ (pointed fs ++ expo)
  wholly : Whole whole
  digits : ∀ c ∈ fs, isDigit c = true
  powers : Powers expo power
  exponential : Exponent expo
  reads : (decimal (whole ++ fs) : ℚ) * (10 : ℚ) ^ (power - fs.length) = value

theorem whole_digits {whole : Bytes} (wholly : Whole whole) :
    whole ≠ [] ∧ ∀ c ∈ whole, isDigit c = true := by
  rcases wholly with same | ⟨digits, _⟩
  · rw [same]
    refine ⟨List.cons_ne_nil _ _, ?_⟩
    intro c inside
    rw [List.mem_singleton.mp inside]
    decide
  · exact digits

/-- A printed number is a numeral, with or without a sign. -/
theorem Printed.numeral {text : Bytes} {value : ℚ} (printed : Printed text value)
    (negative : Bool) :
    ∃ numeral : Numeral, numeral.text = (if negative then [minus] else []) ++ text ∧
      numeralValue numeral.text = (if negative then -1 else 1) * value := by
  have whole := whole_digits printed.wholly
  let numeral : Numeral :=
    { sign := if negative then [minus] else []
      whole := printed.whole
      fraction := pointed printed.fs
      exponent := printed.expo
      signed := by cases negative <;> simp
      wholly := printed.wholly
      fractional := pointed_fraction printed.digits
      exponential := printed.exponential }
  have text' : numeral.text = (if negative then [minus] else []) ++
      (printed.whole ++ (pointed printed.fs ++ printed.expo)) := rfl
  refine ⟨numeral, by rw [text', ← printed.spelled], ?_⟩
  rw [text', numeral_value whole.1 whole.2 printed.digits printed.powers, printed.reads]

/-- The digits of a number, cut after the first ones. -/
theorem cut_whole {n k : Nat} (some_ : n ≠ 0) (cut : 1 ≤ k) : Whole ((Decimal.ofNat n).take k) := by
  have present := Decimal.of_nat_ne_nil n
  have head := Decimal.of_nat_head some_
  refine Or.inr ⟨⟨?_, ?_⟩, ?_⟩
  · intro empty
    rcases List.take_eq_nil_iff.mp empty with none' | none'
    · omega
    · exact present none'
  · intro c inside
    exact Decimal.of_nat_digit (List.mem_of_mem_take inside)
  · rw [List.head?_take, if_neg (by omega)]
    exact head

theorem printed_exponent (top : ℤ) :
    Powers (letterE :: (if top < 0 then minus else plus) :: Decimal.pad 2 top.natAbs) top ∧
      Exponent (letterE :: (if top < 0 then minus else plus) :: Decimal.pad 2 top.natAbs) := by
  have digits : Digits (Decimal.pad 2 top.natAbs) := by
    refine ⟨?_, fun c inside => Decimal.pad_digit inside⟩
    intro empty
    exact Decimal.of_nat_ne_nil _ (List.append_eq_nil_iff.mp empty).2
  have value : (decimal (Decimal.pad 2 top.natAbs) : ℤ) = top.natAbs := by
    rw [decimal_value, Decimal.value_pad]
  by_cases negative : top < 0
  · rw [if_pos negative]
    constructor
    · have power : top = -(decimal (Decimal.pad 2 top.natAbs) : ℤ) := by omega
      conv => arg 2; rw [power]
      exact .down _
    · exact Or.inr ⟨letterE, [minus], _, Or.inl rfl, Or.inr (Or.inr rfl), digits, rfl⟩
  · rw [if_neg negative]
    constructor
    · have power : top = (decimal (Decimal.pad 2 top.natAbs) : ℤ) := by omega
      conv => arg 2; rw [power]
      exact .up _
    · exact Or.inr ⟨letterE, [plus], _, Or.inl rfl, Or.inr (Or.inl rfl), digits, rfl⟩

/-- `%.*g` of a positive number spells it rounded to its first digits. -/
theorem positive_printed {p : Nat} {x : ℚ} (some_ : 1 ≤ p) (positive : 0 < x) :
    Nonempty (Printed (positiveText p x) (roundTo ((10 : ℚ) ^ (Int.log 10 x - (p - 1))) x)) := by
  obtain ⟨wide, below, value⟩ := first_digits_spec some_ positive
  unfold positiveText
  generalize firstDigits p x = first at *
  obtain ⟨digits, top⟩ := first
  dsimp only at wide below value ⊢
  have nonzero : digits ≠ 0 := by
    have least := Nat.one_le_pow (p - 1) 10 (by omega)
    omega
  have length : (Decimal.ofNat digits).length = p := by
    have long := Decimal.of_nat_full wide
    have short := Decimal.of_nat_length some_ below
    omega
  have allDigits : ∀ c ∈ Decimal.ofNat digits, isDigit c = true := fun c inside =>
    Decimal.of_nat_digit inside
  have dropped : ∀ k, ∀ c ∈ (Decimal.ofNat digits).drop k, isDigit c = true := fun k c inside =>
    allDigits c (List.mem_of_mem_drop inside)
  have read : ∀ k, decimal ((Decimal.ofNat digits).take k ++ (Decimal.ofNat digits).drop k) =
      digits := by
    intro k
    rw [List.take_append_drop, decimal_value, Decimal.value_of_nat]
  by_cases plain : -4 ≤ top ∧ top < p
  · rw [if_pos plain]
    by_cases large : 0 ≤ top
    · rw [if_pos large]
      refine ⟨(Decimal.ofNat digits).take (top.toNat + 1),
        stripZeros ((Decimal.ofNat digits).drop (top.toNat + 1)), [], 0, ?_,
        cut_whole nonzero (by omega), strip_zeros_digits (dropped _), .none, Or.inl rfl, ?_⟩
      · rw [List.append_nil]
      · have shift : (0 : ℤ) - ((Decimal.ofNat digits).drop (top.toNat + 1)).length =
            top - (p - 1) := by
          rw [List.length_drop, length]
          omega
        rw [strip_zeros_value, read, shift, value]
    · rw [if_neg large]
      have filled : ∀ c ∈ List.replicate (-top - 1).toNat zero ++ Decimal.ofNat digits,
          isDigit c = true := by
        intro c inside
        rcases List.mem_append.mp inside with fill | digit
        · rw [List.eq_of_mem_replicate fill]
          decide
        · exact allDigits c digit
      refine ⟨[zero], stripZeros (List.replicate (-top - 1).toNat zero ++ Decimal.ofNat digits), [],
        0, ?_, Or.inl rfl, strip_zeros_digits filled, .none, Or.inl rfl, ?_⟩
      · rw [List.append_nil]
        rfl
      · have shift : (0 : ℤ) -
            (List.replicate (-top - 1).toNat zero ++ Decimal.ofNat digits).length =
              top - (p - 1) := by
          rw [List.length_append, List.length_replicate, length]
          omega
        have number : decimal ([zero] ++ (List.replicate (-top - 1).toNat zero ++
            Decimal.ofNat digits)) = digits := by
          rw [decimal_value, Decimal.value_append, Decimal.value_append, Decimal.value_zeros,
            Decimal.value_of_nat]
          have nothing : Decimal.value [zero] = 0 := rfl
          rw [nothing]
          omega
        rw [strip_zeros_value, number, shift, value]
  · rw [if_neg plain]
    obtain ⟨powers, exponential⟩ := printed_exponent top
    refine ⟨(Decimal.ofNat digits).take 1, stripZeros ((Decimal.ofNat digits).drop 1), _, top, rfl,
      cut_whole nonzero (Nat.le_refl 1), strip_zeros_digits (dropped 1), powers, exponential, ?_⟩
    have shift : top - (((Decimal.ofNat digits).drop 1).length : ℤ) = top - (p - 1) := by
      rw [List.length_drop, length]
      omega
    rw [strip_zeros_value, read, shift, value]

/-- Digits alone spell an integer. -/
theorem whole_printed {whole : Bytes} (wholly : Whole whole) :
    Nonempty (Printed whole (decimal whole)) := by
  have none' : ∀ c ∈ ([] : Bytes), isDigit c = true := by
    intro c never
    cases never
  refine ⟨whole, [], [], 0, (List.append_nil whole).symm, wholly, none', .none, Or.inl rfl, ?_⟩
  rw [List.append_nil, List.length_nil, Nat.cast_zero, sub_zero, zpow_zero, mul_one]

/-- `%.*g` is a numeral that spells the number rounded to its first digits. -/
theorem general_text_numeral {p : Nat} (some_ : 1 ≤ p) (x : ℚ) :
    ∃ numeral : Numeral, numeral.text = generalText p x ∧
      numeralValue numeral.text = significant p x := by
  unfold generalText significant
  by_cases none' : x = 0
  · obtain ⟨printed⟩ := whole_printed (Or.inl rfl : Whole [zero])
    obtain ⟨numeral, text, value⟩ := printed.numeral false
    refine ⟨numeral, by rw [if_pos none', text]; rfl, ?_⟩
    have nothing := round_to_exact (ten_pow_pos (Int.log 10 |x| - (p - 1))).ne' 0
    have empty : decimal [zero] = 0 := rfl
    rw [Int.cast_zero, zero_mul, none', abs_zero] at nothing
    rw [value, empty, Nat.cast_zero, mul_zero, none', abs_zero, nothing, mul_zero]
  rw [if_neg none']
  by_cases negative : x < 0
  · obtain ⟨printed⟩ := positive_printed some_ (neg_pos.mpr negative)
    obtain ⟨numeral, text, value⟩ := printed.numeral true
    refine ⟨numeral, by rw [if_pos negative, text]; rfl, ?_⟩
    rw [value, if_pos rfl, if_pos negative, abs_of_neg negative]
  · have positive : 0 < x := lt_of_le_of_ne (not_lt.mp negative) (Ne.symm none')
    obtain ⟨printed⟩ := positive_printed some_ positive
    obtain ⟨numeral, text, value⟩ := printed.numeral false
    refine ⟨numeral, by rw [if_neg negative, text]; rfl, ?_⟩
    rw [value, if_neg Bool.false_ne_true, if_neg negative, abs_of_pos positive]

/-- `%lld` is a numeral that spells the integer. -/
theorem of_int_numeral (i : ℤ) :
    ∃ numeral : Numeral, numeral.text = Decimal.ofInt i ∧ numeralValue numeral.text = i := by
  have wholly : Whole (Decimal.ofNat i.natAbs) := by
    by_cases none' : i.natAbs = 0
    · rw [none']
      exact Or.inl rfl
    · have whole := cut_whole none' (List.length_pos_iff.mpr (Decimal.of_nat_ne_nil i.natAbs))
      rw [List.take_length] at whole
      exact whole
  have printed := whole_printed wholly
  rw [decimal_value, Decimal.value_of_nat] at printed
  obtain ⟨printed⟩ := printed
  unfold Decimal.ofInt
  by_cases negative : i < 0
  · obtain ⟨numeral, text, value⟩ := printed.numeral true
    refine ⟨numeral, by rw [if_pos negative, text]; rfl, ?_⟩
    have whole : -(i.natAbs : ℤ) = i := by omega
    rw [value, if_pos rfl, neg_one_mul, ← Int.cast_natCast (R := ℚ), ← Int.cast_neg, whole]
  · obtain ⟨numeral, text, value⟩ := printed.numeral false
    refine ⟨numeral, by rw [if_neg negative, text]; rfl, ?_⟩
    have whole : (i.natAbs : ℤ) = i := by omega
    rw [value, if_neg Bool.false_ne_true, one_mul, ← Int.cast_natCast (R := ℚ), whole]

end GridcoreRunner.Json
