import GridcoreRunner.Quant.KPack

/-!
# Reading the K-quant blocks back

`dq_q3_K`, `dq_q4_K` and `dq_q6_K` over any type of numbers that has their operations: in
the type of the terms themselves a result names the code, the scale and the minimum it was
made from. What the writers packed is found at every index.
-/

namespace GridcoreRunner.Quant

set_option autoImplicit false

open Fields

section Readers

variable {F : Type} [Mul F] [Sub F] [IntCast F]

/-- An integer where the code computes with floats. -/
def int (n : ℤ) : F := (n : F)

/-! ## Q3_K -/

def kmask1 : Nat := 0x03030303
def kmask2 : Nat := 0x0f0f0f0f

/-- The words `memcpy` makes of the bytes, the first byte of each lowest. -/
def q3Words (scales : Nat → Nat) (i : Nat) : Nat := word fun k => scales (4 * i + k)

/-- The words `aux` after the shuffle. -/
def q3Aux (scales : Nat → Nat) (i : Nat) : Nat :=
  let tmp := q3Words scales 2
  if i = 0 then (q3Words scales 0 &&& kmask2) ||| u32 ((tmp >>> 0 &&& kmask1) <<< 4)
  else if i = 1 then (q3Words scales 1 &&& kmask2) ||| u32 ((tmp >>> 2 &&& kmask1) <<< 4)
  else if i = 2 then (q3Words scales 0 >>> 4 &&& kmask2) ||| u32 ((tmp >>> 4 &&& kmask1) <<< 4)
  else (q3Words scales 1 >>> 4 &&& kmask2) ||| u32 ((tmp >>> 6 &&& kmask1) <<< 4)

/-- `scales[is]`, the words read as an array of `int8_t`. -/
def q3Scale (scales : Nat → Nat) (is : Nat) : ℤ := i8 (lane (q3Aux scales (is / 4)) (is % 4))

structure Q3Reader (F : Type) where
  q : Nat
  is : Nat
  m : Nat
  shift : Nat
  y : List F

/-- Sixteen values of one scale, from place `off` of the bytes on. -/
def q3Run (b : BlockQ3K) (dl : F) (q m shift off : Nat) : List F :=
  (List.range 16).map fun l =>
    dl * int (((b.qs (q + (l + off)) >>> shift &&& 3 : Nat) : ℤ) -
      if b.hmask (l + off) &&& m ≠ 0 then 0 else 4)

def Q3Reader.round (f16_to_f32 : Nat → F) (b : BlockQ3K) (s : Q3Reader F) : Q3Reader F :=
  let first : F := f16_to_f32 b.d * int (q3Scale b.scales s.is - 32)
  let second : F := f16_to_f32 b.d * int (q3Scale b.scales (s.is + 1) - 32)
  { s with
    is := s.is + 2
    m := u8 (s.m <<< 1)
    shift := s.shift + 2
    y := s.y ++ q3Run b first s.q s.m s.shift 0 ++ q3Run b second s.q s.m s.shift 16 }

def Q3Reader.half (f16_to_f32 : Nat → F) (b : BlockQ3K) (s : Q3Reader F) : Q3Reader F :=
  let s := (List.range 4).foldl (fun s _ => s.round f16_to_f32 b) { s with shift := 0 }
  { s with q := s.q + 32 }

def dqQ3K (f16_to_f32 : Nat → F) (b : BlockQ3K) : List F :=
  ([0, 128].foldl (fun s _ => Q3Reader.half f16_to_f32 b s) ⟨0, 0, 1, 0, []⟩).y

/-! ## Q4_K -/

/-- `get_scale_min_k4`, and `scale_min_k4` of the writer. -/
def getScaleMinK4 (j : Nat) (q : Nat → Nat) : Nat × Nat :=
  if j < 4 then (q j &&& 63, q (j + 4) &&& 63)
  else
    (u8 ((q (j + 4) &&& 15) ||| (q (j - 4) >>> 6) <<< 4),
      u8 (q (j + 4) >>> 4 ||| (q j >>> 6) <<< 4))

/-- `q`, `is` and the pointer `y` as a place in the output. -/
structure Q4Reader (F : Type) where
  q : Nat
  is : Nat
  at_ : Nat
  y : Nat → F

def Q4Reader.round (f16_to_f32 : Nat → F) (b : BlockQ4K) (s : Q4Reader F) : Q4Reader F :=
  let one := getScaleMinK4 (s.is + 0) b.scales
  let d1 : F := f16_to_f32 b.d * int one.1
  let m1 : F := f16_to_f32 b.dmin * int one.2
  let two := getScaleMinK4 (s.is + 1) b.scales
  let d2 : F := f16_to_f32 b.d * int two.1
  let m2 : F := f16_to_f32 b.dmin * int two.2
  let low := (List.range 32).foldl
    (fun y l => Function.update y (s.at_ + l) (d1 * int (b.qs (s.q + l) &&& 15 : Nat) - m1)) s.y
  { q := s.q + 32
    is := s.is + 2
    at_ := s.at_ + 64
    y := (List.range 32).foldl
      (fun y l =>
        Function.update y (s.at_ + 32 + l) (d2 * int (b.qs (s.q + l) >>> 4 : Nat) - m2)) low }

def dqQ4K (f16_to_f32 : Nat → F) (b : BlockQ4K) (y : Nat → F) : Nat → F :=
  ([0, 64, 128, 192].foldl (fun s _ => Q4Reader.round f16_to_f32 b s) ⟨0, 0, 0, y⟩).y

/-! ## Q6_K -/

structure Q6Reader (F : Type) where
  ql : Nat
  qh : Nat
  sc : Nat
  at_ : Nat
  y : Nat → F

def Q6Reader.round (d : F) (b : BlockQ6K) (s : Q6Reader F) (l : Nat) : Q6Reader F :=
  let is := l / 16
  let q1 : ℤ := ((b.ql (s.ql + l) &&& 15) ||| (b.qh (s.qh + l) >>> 0 &&& 3) <<< 4 : Nat) - 32
  let q2 : ℤ :=
    ((b.ql (s.ql + (l + 32)) &&& 15) ||| (b.qh (s.qh + l) >>> 2 &&& 3) <<< 4 : Nat) - 32
  let q3 : ℤ := (b.ql (s.ql + l) >>> 4 ||| (b.qh (s.qh + l) >>> 4 &&& 3) <<< 4 : Nat) - 32
  let q4 : ℤ := (b.ql (s.ql + (l + 32)) >>> 4 ||| (b.qh (s.qh + l) >>> 6 &&& 3) <<< 4 : Nat) - 32
  let y1 := Function.update s.y (s.at_ + l) (d * int (b.scales (s.sc + (is + 0))) * int q1)
  let y2 := Function.update y1 (s.at_ + (l + 32)) (d * int (b.scales (s.sc + (is + 2))) * int q2)
  let y3 := Function.update y2 (s.at_ + (l + 64)) (d * int (b.scales (s.sc + (is + 4))) * int q3)
  { s with
    y := Function.update y3 (s.at_ + (l + 96)) (d * int (b.scales (s.sc + (is + 6))) * int q4) }

def Q6Reader.half (d : F) (b : BlockQ6K) (s : Q6Reader F) : Q6Reader F :=
  let s := (List.range 32).foldl (Q6Reader.round d b) s
  { s with ql := s.ql + 64, qh := s.qh + 32, sc := s.sc + 8, at_ := s.at_ + 128 }

def dqQ6K (f16_to_f32 : Nat → F) (b : BlockQ6K) (y : Nat → F) : Nat → F :=
  ((List.range 2).foldl (fun s _ => Q6Reader.half (f16_to_f32 b.d) b s) ⟨0, 0, 0, 0, y⟩).y

end Readers

/-! ## The scales are found -/

/-- A shift of one word and a mask in every lane: four low bits of every byte. -/
theorem low_nibbles (w : Nat) {shift k : Nat} (within : k < 4) (room : shift ≤ 4) :
    lane (w >>> shift &&& kmask2) k = lane w k >>> shift % 16 := by
  have repeats : ∀ j < 4, ∀ i < 8, kmask2.testBit (8 * j + i) = Nat.testBit 15 i := by decide
  have stays : ∀ i, Nat.testBit 15 i = true → i + shift < 8 := by
    intro i set
    have bound : i < 4 := by
      by_contra outside
      rw [Nat.testBit_lt_two_pow (Nat.lt_of_lt_of_le (show 15 < 2 ^ 4 by omega)
        (Nat.pow_le_pow_right (by omega) (Nat.not_lt.mp outside)))] at set
      cases set
    omega
  rw [lane_masked within repeats stays, mask_four]

theorem low_pairs (w : Nat) {shift k : Nat} (within : k < 4) (room : shift ≤ 6) :
    lane (w >>> shift &&& kmask1) k = lane w k >>> shift % 4 := by
  have repeats : ∀ j < 4, ∀ i < 8, kmask1.testBit (8 * j + i) = Nat.testBit 3 i := by decide
  have stays : ∀ i, Nat.testBit 3 i = true → i + shift < 8 := by
    intro i set
    have bound : i < 2 := by
      by_contra outside
      rw [Nat.testBit_lt_two_pow (Nat.lt_of_lt_of_le (show 3 < 2 ^ 2 by omega)
        (Nat.pow_le_pow_right (by omega) (Nat.not_lt.mp outside)))] at set
      cases set
    omega
  rw [lane_masked within repeats stays, mask_two]

/-- A byte of a shuffled word: four bits of one byte under two of the other. -/
theorem shuffled {w t a c k low high : Nat} (within : k < 4) (lowShift : a ≤ 4)
    (highShift : c ≤ 6) (lowByte : lane w k = low)
    (highByte : lane t k = high) :
    lane ((w >>> a &&& kmask2) ||| u32 ((t >>> c &&& kmask1) <<< 4)) k =
      low / 2 ^ a % 16 + high / 2 ^ c % 4 * 16 := by
  have room : ∀ j, lane (t >>> c &&& kmask1) j < 2 ^ (8 - 4) := by
    intro j
    by_cases inside : j < 4
    · rw [low_pairs t inside highShift]
      omega
    · have small : t >>> c &&& kmask1 < 2 ^ 32 :=
        Nat.lt_of_le_of_lt Nat.and_le_right (by decide)
      rw [lane_past small (by omega)]
      omega
  rw [lane_or, lane_u32 _ within, lane_shift (by omega) room, low_nibbles w within lowShift,
    low_pairs t within highShift, lowByte, highByte, Nat.shiftRight_eq_div_pow,
    Nat.shiftRight_eq_div_pow]
  exact or_shift (show low / 2 ^ a % 16 < 2 ^ 4 by omega) _

/-- The bytes of the scales as `dq_q3_K` reads them, before the sign is put back. -/
theorem q3_scale_fields {scales : Nat → Nat} (bytes : ∀ i < 12, scales i < 256) {is : Nat}
    (group : is < 16) :
    q3Scale scales is =
      ((if is < 8 then scales is % 16 else scales (is - 8) / 16 % 16) +
        scales (8 + is % 4) / 2 ^ (2 * (is / 4)) % 4 * 16 : Nat) := by
  have inside : is % 4 < 4 := Nat.mod_lt is (by omega)
  have source : ∀ i < 3, lane (q3Words scales i) (is % 4) = scales (4 * i + is % 4) := by
    intro i word
    unfold q3Words
    exact @lane_word (fun k => scales (4 * i + k))
      (fun k below => bytes (4 * i + k) (by omega)) _ inside
  have field : lane (q3Aux scales (is / 4)) (is % 4) =
      (if is < 8 then scales is % 16 else scales (is - 8) / 16 % 16) +
        scales (8 + is % 4) / 2 ^ (2 * (is / 4)) % 4 * 16 := by
    have fourth : is / 4 = 0 ∨ is / 4 = 1 ∨ is / 4 = 2 ∨ is / 4 = 3 := by omega
    unfold q3Aux
    rcases fourth with row | row | row | row
    · have here : lane (q3Words scales 0) (is % 4) = scales is := by
        rw [source 0 (by omega), show 4 * 0 + is % 4 = is by omega]
      rw [row, if_pos (show is < 8 by omega), if_pos rfl, Nat.mul_zero, Nat.pow_zero, Nat.div_one]
      have read := shuffled (a := 0) (c := 0) inside (by omega) (by omega) here
        (source 2 (by omega))
      simp only [Nat.shiftRight_zero, Nat.pow_zero, Nat.div_one] at read ⊢
      exact read
    · have here : lane (q3Words scales 1) (is % 4) = scales is := by
        rw [source 1 (by omega), show 4 * 1 + is % 4 = is by omega]
      rw [row, if_pos (show is < 8 by omega), if_neg (by omega), if_pos rfl]
      have read := shuffled (a := 0) (c := 2) inside (by omega) (by omega) here
        (source 2 (by omega))
      simp only [Nat.shiftRight_zero, Nat.pow_zero, Nat.div_one] at read ⊢
      exact read
    · have here : lane (q3Words scales 0) (is % 4) = scales (is - 8) := by
        rw [source 0 (by omega), show 4 * 0 + is % 4 = is - 8 by omega]
      rw [row, if_neg (show ¬ is < 8 by omega), if_neg (by omega), if_neg (by omega), if_pos rfl]
      exact shuffled (a := 4) (c := 4) inside (by omega) (by omega) here (source 2 (by omega))
    · have here : lane (q3Words scales 1) (is % 4) = scales (is - 8) := by
        rw [source 1 (by omega), show 4 * 1 + is % 4 = is - 8 by omega]
      rw [row, if_neg (show ¬ is < 8 by omega), if_neg (by omega), if_neg (by omega),
        if_neg (by omega)]
      exact shuffled (a := 4) (c := 6) inside (by omega) (by omega) here (source 2 (by omega))
  unfold q3Scale
  rw [field]
  apply i8_inside
  · omega
  · by_cases low : is < 8
    · rw [if_pos low]
      omega
    · rw [if_neg low]
      omega

theorem biased_small (v : ClampedQ3K) (j : Nat) : (v.l j + 32).toNat < 64 := by
  have range := v.scales j
  omega

theorem q3_scale_bytes (v : ClampedQ3K) (d : Nat) : ∀ i < 12, (packQ3K d v).scales i < 256 := by
  intro i inside
  by_cases low : i < 8
  · rw [q3_scale_low v d low]
    omega
  · have upper := q3_scale_high v d (show i - 8 < 4 by omega)
    have first := biased_small v (i - 8)
    have second := biased_small v (i - 8 + 4)
    have third := biased_small v (i - 8 + 8)
    have fourth := biased_small v (i - 8 + 12)
    rw [show 8 + (i - 8) = i by omega] at upper
    rw [upper]
    omega

theorem q3_scale_packed (v : ClampedQ3K) (d : Nat) {is : Nat} (group : is < 16) :
    q3Scale (packQ3K d v).scales is - 32 = v.l is := by
  have small := biased_small v
  have high : (packQ3K d v).scales (8 + is % 4) / 2 ^ (2 * (is / 4)) % 4 =
      (v.l is + 32).toNat / 16 := by
    have first := small (is % 4)
    have second := small (is % 4 + 4)
    have third := small (is % 4 + 8)
    have fourth := small (is % 4 + 12)
    rw [q3_scale_high v d (Nat.mod_lt is (by omega))]
    have row : is / 4 = 0 ∨ is / 4 = 1 ∨ is / 4 = 2 ∨ is / 4 = 3 := by omega
    rcases row with row | row | row | row
    · have place : is % 4 = is := by omega
      rw [place] at first second third fourth ⊢
      rw [row]
      omega
    · have place : is % 4 + 4 = is := by omega
      rw [place] at second ⊢
      rw [row]
      omega
    · have place : is % 4 + 8 = is := by omega
      rw [place] at third ⊢
      rw [row]
      omega
    · have place : is % 4 + 12 = is := by omega
      rw [place] at fourth ⊢
      rw [row]
      omega
  have range := v.scales is
  rw [q3_scale_fields (q3_scale_bytes v d) group, high]
  by_cases low : is < 8
  · rw [if_pos low, q3_scale_low v d low]
    omega
  · rw [if_neg low, q3_scale_low v d (show is - 8 < 8 by omega),
      show is - 8 + 8 = is by omega]
    omega

/-- The scale the writer of Q3_K reads back itself before it rounds the codes again. -/
def q3OwnScale (scales : Nat → Nat) (j : Nat) : ℤ :=
  let sc := if j < 8 then scales j &&& 15 else scales (j - 8) >>> 4
  ((sc ||| ((scales (8 + j % 4) >>> (2 * (j / 4)) &&& 3) <<< 4) : Nat) : ℤ) - 32

/-- Writer and reader round against one scale. -/
theorem q3_own_scale (v : ClampedQ3K) (d : Nat) {j : Nat} (group : j < 16) :
    q3OwnScale (packQ3K d v).scales j = q3Scale (packQ3K d v).scales j - 32 := by
  have bytes := q3_scale_bytes v d
  rw [q3_scale_fields bytes group]
  unfold q3OwnScale
  rw [mask_four, mask_two, Nat.shiftRight_eq_div_pow, Nat.shiftRight_eq_div_pow]
  by_cases low : j < 8
  · rw [if_pos low, if_pos low]
    dsimp only
    rw [or_shift (show (packQ3K d v).scales j % 16 < 2 ^ 4 by omega)]
    rfl
  · have byte := bytes (j - 8) (by omega)
    have nibble : (packQ3K d v).scales (j - 8) / 2 ^ 4 =
        (packQ3K d v).scales (j - 8) / 16 % 16 := by omega
    rw [if_neg low, if_neg low, nibble]
    dsimp only
    rw [or_shift (show (packQ3K d v).scales (j - 8) / 16 % 16 < 2 ^ 4 by omega)]
    rfl

/-! ## Every value is found -/

section Values

variable {F : Type} [Mul F] [IntCast F]

/-- The sixteen values of group `r`, the counters of the reader worked out. -/
def q3Group (f16_to_f32 : Nat → F) (b : BlockQ3K) (r : Nat) : List F :=
  q3Run b (f16_to_f32 b.d * int (q3Scale b.scales r - 32)) (32 * (r / 8)) (2 ^ (r / 2))
    (2 * (r / 2 % 4)) (16 * (r % 2))

def q3Groups (f16_to_f32 : Nat → F) (b : BlockQ3K) (n : Nat) : List F :=
  (List.range n).flatMap (q3Group f16_to_f32 b)

theorem q3_groups_next (f16_to_f32 : Nat → F) (b : BlockQ3K) (n : Nat) :
    q3Groups f16_to_f32 b (n + 1) = q3Groups f16_to_f32 b n ++ q3Group f16_to_f32 b n := by
  unfold q3Groups
  rw [List.range_succ, List.flatMap_append, List.flatMap_singleton]

theorem Q3Reader.round_groups (f16_to_f32 : Nat → F) (b : BlockQ3K) {n : Nat} (within : n < 8) :
    Q3Reader.round f16_to_f32 b ⟨32 * (n / 4), 2 * n, u8 (2 ^ n), 2 * (n % 4),
        q3Groups f16_to_f32 b (2 * n)⟩ =
      ⟨32 * (n / 4), 2 * (n + 1), u8 (2 ^ (n + 1)), 2 * (n % 4) + 2,
        q3Groups f16_to_f32 b (2 * (n + 1))⟩ := by
  have bit : u8 (2 ^ n) = 2 ^ n := by
    apply u8_small
    calc 2 ^ n ≤ 2 ^ 7 := Nat.pow_le_pow_right (by omega) (by omega)
      _ < 256 := by omega
  have groups : q3Groups f16_to_f32 b (2 * (n + 1)) =
      q3Groups f16_to_f32 b (2 * n) ++ q3Group f16_to_f32 b (2 * n) ++
        q3Group f16_to_f32 b (2 * n + 1) := by
    rw [show 2 * (n + 1) = 2 * n + 1 + 1 by omega, q3_groups_next, q3_groups_next]
  have shifted : u8 (2 ^ n <<< 1) = u8 (2 ^ (n + 1)) := by
    rw [Nat.shiftLeft_eq, Nat.pow_one, ← Nat.pow_succ]
  rw [groups]
  unfold Q3Reader.round q3Group
  dsimp only
  rw [bit, shifted, show 2 * n / 8 = n / 4 by omega, show (2 * n + 1) / 8 = n / 4 by omega,
    show 2 * n / 2 = n by omega, show (2 * n + 1) / 2 = n by omega,
    show 2 * n % 2 = 0 by omega, show (2 * n + 1) % 2 = 1 by omega, Nat.mul_zero, Nat.mul_one]
  rfl

/-- Half a block, from group `8 * half` on. -/
theorem Q3Reader.half_groups (f16_to_f32 : Nat → F) (b : BlockQ3K) {half : Nat}
    (which : half < 2) (shift : Nat) :
    Q3Reader.half f16_to_f32 b ⟨32 * half, 8 * half, u8 (2 ^ (4 * half)), shift,
        q3Groups f16_to_f32 b (8 * half)⟩ =
      ⟨32 * (half + 1), 8 * (half + 1), u8 (2 ^ (4 * (half + 1))), 8,
        q3Groups f16_to_f32 b (8 * (half + 1))⟩ := by
  have rounds : ∀ k ≤ 4, (List.range k).foldl (fun s _ => Q3Reader.round f16_to_f32 b s)
      ⟨32 * half, 8 * half, u8 (2 ^ (4 * half)), 0, q3Groups f16_to_f32 b (8 * half)⟩ =
        ⟨32 * half, 8 * half + 2 * k, u8 (2 ^ (4 * half + k)), 2 * k,
          q3Groups f16_to_f32 b (8 * half + 2 * k)⟩ := by
    intro k
    induction k with
    | zero =>
        intro within
        rfl
    | succ k induction =>
        intro within
        have step := Q3Reader.round_groups f16_to_f32 b (show 4 * half + k < 8 by omega)
        rw [show (4 * half + k) / 4 = half by omega, show (4 * half + k) % 4 = k by omega,
          show 2 * (4 * half + k) = 8 * half + 2 * k by omega,
          show 2 * (4 * half + k + 1) = 8 * half + 2 * (k + 1) by omega] at step
        rw [List.range_succ, List.foldl_append, induction (by omega), List.foldl_cons,
          List.foldl_nil, step]
        rfl
  unfold Q3Reader.half
  rw [rounds 4 (Nat.le_refl 4)]
  rfl

theorem q3_reads_groups (f16_to_f32 : Nat → F) (b : BlockQ3K) :
    dqQ3K f16_to_f32 b = q3Groups f16_to_f32 b 16 := by
  have first := Q3Reader.half_groups f16_to_f32 b (show 0 < 2 by omega) 0
  have second := Q3Reader.half_groups f16_to_f32 b (show 1 < 2 by omega) 8
  unfold dqQ3K
  rw [List.foldl_cons, List.foldl_cons, List.foldl_nil]
  exact congrArg Q3Reader.y ((congrArg (Q3Reader.half f16_to_f32 b) first).trans second)

/-- One value of a packed block. -/
theorem q3_code_packed (v : ClampedQ3K) (d : Nat) {r l : Nat} (group : r < 16) (place : l < 16) :
    let b := packQ3K d v
    (((b.qs (32 * (r / 8) + (l + 16 * (r % 2))) >>> (2 * (r / 2 % 4)) &&& 3 : Nat) : ℤ) -
        if b.hmask (l + 16 * (r % 2)) &&& 2 ^ (r / 2) ≠ 0 then 0 else 4) =
      (v.q (16 * r + l) : ℤ) - 4 := by
  have small := v.codes (16 * r + l)
  have low : (packQ3K d v).qs (32 * (r / 8) + (l + 16 * (r % 2))) / 2 ^ (2 * (r / 2 % 4)) % 4 =
      v.q (16 * r + l) % 4 := by
    rw [q3_qs v d (show r / 8 < 2 by omega) (show l + 16 * (r % 2) < 32 by omega)]
    have row : r / 2 % 4 = 0 ∨ r / 2 % 4 = 1 ∨ r / 2 % 4 = 2 ∨ r / 2 % 4 = 3 := by omega
    rcases row with row | row | row | row
    · rw [row, show 128 * (r / 8) + (l + 16 * (r % 2)) = 16 * r + l by omega]
      omega
    · rw [row, show 128 * (r / 8) + (l + 16 * (r % 2)) + 32 = 16 * r + l by omega]
      omega
    · rw [row, show 128 * (r / 8) + (l + 16 * (r % 2)) + 64 = 16 * r + l by omega]
      omega
    · rw [row, show 128 * (r / 8) + (l + 16 * (r % 2)) + 96 = 16 * r + l by omega]
      omega
  have high : (packQ3K d v).hmask (l + 16 * (r % 2)) &&& 2 ^ (r / 2) ≠ 0 ↔
      3 < v.q (16 * r + l) := by
    rw [Ne, and_bit, q3_hmask v d (show l + 16 * (r % 2) < 32 by omega) (show r / 2 < 8 by omega),
      show l + 16 * (r % 2) + 32 * (r / 2) = 16 * r + l by omega, decide_eq_false_iff_not,
      not_not]
  dsimp only
  rw [mask_two, Nat.shiftRight_eq_div_pow, low, if_congr high rfl rfl]
  by_cases upper : 3 < v.q (16 * r + l)
  · rw [if_pos upper]
    omega
  · rw [if_neg upper]
    omega

theorem q3_packed_read (f16_to_f32 : Nat → F) (d : Nat) (v : ClampedQ3K) :
    dqQ3K f16_to_f32 (packQ3K d v) =
      (List.range 256).map fun i =>
        f16_to_f32 d * int (v.l (i / 16)) * int ((v.q i : ℤ) - 4) := by
  rw [q3_reads_groups]
  have blocks := Table.blocks_map
    (fun i => f16_to_f32 d * (int (v.l (i / 16)) : F) * int ((v.q i : ℤ) - 4)) 16 16
  refine Eq.trans ?_ blocks
  unfold q3Groups
  apply List.flatMap_congr
  intro r member
  have group := List.mem_range.mp member
  unfold q3Group q3Run
  apply List.map_congr_left
  intro l inside
  have place := List.mem_range.mp inside
  rw [q3_code_packed v d group place, q3_scale_packed v d group,
    show (16 * r + l) / 16 = r by omega]
  rfl

/-! ## Q4_K -/

theorem q4_scale_packed (v : ClampedQ4K) (d dmin : Nat) {j : Nat} (group : j < 8) :
    getScaleMinK4 j (packQ4K d dmin v).scales = (v.ls j, v.lm j) := by
  unfold getScaleMinK4
  by_cases low : j < 4
  · obtain ⟨first, second, _⟩ := q4_scales v d dmin low
    have scale := v.scales j
    have minimum := v.minima j
    rw [Nat.add_comm j 4, if_pos low, first, second, mask_six, mask_six]
    congr 1 <;> omega
  · obtain ⟨first, second, third⟩ := q4_scales v d dmin (show j - 4 < 4 by omega)
    have place : j - 4 + 4 = j := by omega
    have upper : 4 + (j - 4) = j := by omega
    have shared : 8 + (j - 4) = j + 4 := by omega
    have scale := v.scales j
    have minimum := v.minima j
    have lower := v.scales (j - 4)
    have lowerMin := v.minima (j - 4)
    rw [place] at first second third
    rw [upper] at second
    rw [shared] at third
    rw [if_neg low, first, second, third, mask_four, Nat.shiftRight_eq_div_pow,
      Nat.shiftRight_eq_div_pow, Nat.shiftRight_eq_div_pow, nibbles (by omega) (by omega),
      nibbles (by omega) (by omega)]
    congr 1 <;> omega

section Minima

variable [Sub F]

def q4Value (f16_to_f32 : Nat → F) (d dmin : Nat) (v : ClampedQ4K) (i : Nat) : F :=
  f16_to_f32 d * int (v.ls (i / 32)) * int (v.code i) - f16_to_f32 dmin * int (v.lm (i / 32))

theorem Q4Reader.round_packed (f16_to_f32 : Nat → F) (d dmin : Nat) (v : ClampedQ4K) {n : Nat}
    (within : n < 4) (y : Nat → F) :
    ∃ z, Q4Reader.round f16_to_f32 (packQ4K d dmin v) ⟨32 * n, 2 * n, 64 * n, y⟩ =
        ⟨32 * (n + 1), 2 * (n + 1), 64 * (n + 1), z⟩ ∧
      ∀ i, z i =
        if 64 * n ≤ i ∧ i < 64 * (n + 1) then q4Value f16_to_f32 d dmin v i else y i := by
  have lowCode : ∀ l < 32, (packQ4K d dmin v).qs (32 * n + l) &&& 15 = v.code (64 * n + l) := by
    intro l place
    have small := v.codes (64 * n + l)
    rw [q4_qs v d dmin within place, mask_four]
    omega
  have highCode : ∀ l < 32,
      (packQ4K d dmin v).qs (32 * n + l) >>> 4 = v.code (64 * n + l + 32) := by
    intro l place
    have small := v.codes (64 * n + l)
    rw [q4_qs v d dmin within place, Nat.shiftRight_eq_div_pow]
    omega
  refine ⟨_, rfl, ?_⟩
  intro i
  rw [Table.stores_at, Table.stores_at, q4_scale_packed v d dmin (show 2 * n + 0 < 8 by omega),
    q4_scale_packed v d dmin (show 2 * n + 1 < 8 by omega)]
  dsimp only
  by_cases upper : 64 * n + 32 ≤ i ∧ i < 64 * n + 32 + 32
  · have group : i / 32 = 2 * n + 1 := by omega
    have index : 64 * n + (i - (64 * n + 32)) + 32 = i := by omega
    rw [if_pos upper, if_pos (by omega), highCode (i - (64 * n + 32)) (by omega), index]
    unfold q4Value
    rw [group]
    rfl
  · rw [if_neg upper]
    by_cases lower : 64 * n ≤ i ∧ i < 64 * n + 32
    · have group : i / 32 = 2 * n := by omega
      have index : 64 * n + (i - 64 * n) = i := by omega
      rw [if_pos lower, if_pos (by omega), lowCode (i - 64 * n) (by omega), index]
      unfold q4Value
      rw [group]
      rfl
    · rw [if_neg lower, if_neg (by omega)]

theorem q4_packed_read (f16_to_f32 : Nat → F) (d dmin : Nat) (v : ClampedQ4K) (y : Nat → F)
    (i : Nat) :
    dqQ4K f16_to_f32 (packQ4K d dmin v) y i =
      if i < 256 then q4Value f16_to_f32 d dmin v i else y i := by
  obtain ⟨y1, round1, values1⟩ :=
    Q4Reader.round_packed f16_to_f32 d dmin v (show 0 < 4 by omega) y
  obtain ⟨y2, round2, values2⟩ :=
    Q4Reader.round_packed f16_to_f32 d dmin v (show 1 < 4 by omega) y1
  obtain ⟨y3, round3, values3⟩ :=
    Q4Reader.round_packed f16_to_f32 d dmin v (show 2 < 4 by omega) y2
  obtain ⟨y4, round4, values4⟩ :=
    Q4Reader.round_packed f16_to_f32 d dmin v (show 3 < 4 by omega) y3
  have rounds : dqQ4K f16_to_f32 (packQ4K d dmin v) y = y4 := by
    let step := Q4Reader.round f16_to_f32 (packQ4K d dmin v)
    unfold dqQ4K
    rw [List.foldl_cons, List.foldl_cons, List.foldl_cons, List.foldl_cons, List.foldl_nil]
    exact congrArg Q4Reader.y ((congrArg step ((congrArg step
      ((congrArg step round1).trans round2)).trans round3)).trans round4)
  rw [rounds, values4, values3, values2, values1]
  grind

end Minima

/-! ## Q6_K -/

def q6Value (f16_to_f32 : Nat → F) (d : Nat) (v : ClampedQ6K) (i : Nat) : F :=
  f16_to_f32 d * int (v.scale (i / 16)) * int ((v.code i : ℤ) - 32)

/-- The four codes of a round of `dq_q6_K`. -/
theorem q6_codes_packed (v : ClampedQ6K) (d : Nat) {half l : Nat} (which : half < 2)
    (place : l < 32) :
    let b := packQ6K d v
    ((b.ql (64 * half + l) &&& 15) ||| (b.qh (32 * half + l) >>> 0 &&& 3) <<< 4) =
        v.code (128 * half + l) ∧
      ((b.ql (64 * half + (l + 32)) &&& 15) ||| (b.qh (32 * half + l) >>> 2 &&& 3) <<< 4) =
        v.code (128 * half + l + 32) ∧
      (b.ql (64 * half + l) >>> 4 ||| (b.qh (32 * half + l) >>> 4 &&& 3) <<< 4) =
        v.code (128 * half + l + 64) ∧
      (b.ql (64 * half + (l + 32)) >>> 4 ||| (b.qh (32 * half + l) >>> 6 &&& 3) <<< 4) =
        v.code (128 * half + l + 96) := by
  obtain ⟨first, second, high⟩ := q6_bytes v d which place
  have one := v.codes (128 * half + l)
  have two := v.codes (128 * half + l + 32)
  have three := v.codes (128 * half + l + 64)
  have four := v.codes (128 * half + l + 96)
  have joined : ∀ a b : Nat, a < 16 → a ||| b <<< 4 = a + b * 16 := fun a b small =>
    or_shift (show a < 2 ^ 4 from small) b
  dsimp only
  rw [← Nat.add_assoc, first, second, high]
  simp only [mask_four, mask_two, Nat.shiftRight_eq_div_pow]
  rw [joined _ _ (by omega), joined _ _ (by omega), joined _ _ (by omega), joined _ _ (by omega)]
  omega

theorem Q6Reader.rounds_packed (f16_to_f32 : Nat → F) (d : Nat) (v : ClampedQ6K) {half : Nat}
    (which : half < 2) (y : Nat → F) {n : Nat} (within : n ≤ 32) :
    ∃ z, (List.range n).foldl (Q6Reader.round (f16_to_f32 d) (packQ6K d v))
          ⟨64 * half, 32 * half, 8 * half, 128 * half, y⟩ =
        ⟨64 * half, 32 * half, 8 * half, 128 * half, z⟩ ∧
      ∀ i, z i = if 128 * half ≤ i ∧ i < 128 * half + 128 ∧ i % 32 < n then
        q6Value f16_to_f32 d v i else y i := by
  induction n with
  | zero =>
      refine ⟨y, rfl, ?_⟩
      intro i
      rw [if_neg (by omega)]
  | succ n induction =>
      obtain ⟨z, rounds, values⟩ := induction (by omega)
      obtain ⟨first, second, third, fourth⟩ := q6_codes_packed v d which (show n < 32 by omega)
      rw [List.range_succ, List.foldl_append, rounds, List.foldl_cons, List.foldl_nil]
      refine ⟨_, rfl, ?_⟩
      intro i
      dsimp only
      rw [first, second, third, fourth, q6_scales v d (by omega), q6_scales v d (by omega),
        q6_scales v d (by omega), q6_scales v d (by omega)]
      have value : ∀ c, c < 4 → i = 128 * half + (n + 32 * c) →
          f16_to_f32 d * int (v.scale (8 * half + (n / 16 + 2 * c))) *
              int ((v.code (128 * half + n + 32 * c) : ℤ) - 32) =
            if 128 * half ≤ i ∧ i < 128 * half + 128 ∧ i % 32 < n + 1 then
              q6Value f16_to_f32 d v i else y i := by
        intro c quarter here
        rw [if_pos (by omega)]
        unfold q6Value
        rw [show 8 * half + (n / 16 + 2 * c) = i / 16 by omega,
          show 128 * half + n + 32 * c = i by omega]
      by_cases at4 : i = 128 * half + (n + 96)
      · rw [at4, Function.update_self, ← at4]
        exact value 3 (by omega) at4
      · rw [Function.update_of_ne at4]
        by_cases at3 : i = 128 * half + (n + 64)
        · rw [at3, Function.update_self, ← at3]
          exact value 2 (by omega) at3
        · rw [Function.update_of_ne at3]
          by_cases at2 : i = 128 * half + (n + 32)
          · rw [at2, Function.update_self, ← at2]
            exact value 1 (by omega) at2
          · rw [Function.update_of_ne at2]
            by_cases at1 : i = 128 * half + n
            · have found := value 0 (by omega) at1
              rw [at1] at found ⊢
              rw [Function.update_self]
              exact found
            · rw [Function.update_of_ne at1, values i]
              exact if_congr (by omega) rfl rfl

theorem q6_packed_read (f16_to_f32 : Nat → F) (d : Nat) (v : ClampedQ6K) (y : Nat → F)
    (i : Nat) :
    dqQ6K f16_to_f32 (packQ6K d v) y i =
      if i < 256 then q6Value f16_to_f32 d v i else y i := by
  obtain ⟨y1, round1, values1⟩ :=
    Q6Reader.rounds_packed f16_to_f32 d v (show 0 < 2 by omega) y (Nat.le_refl 32)
  obtain ⟨y2, round2, values2⟩ :=
    Q6Reader.rounds_packed f16_to_f32 d v (show 1 < 2 by omega) y1 (Nat.le_refl 32)
  have halves : dqQ6K f16_to_f32 (packQ6K d v) y = y2 := by
    unfold dqQ6K
    rw [show List.range 2 = [0, 1] from rfl, List.foldl_cons, List.foldl_cons, List.foldl_nil]
    let advance (s : Q6Reader F) : Q6Reader F :=
      { s with ql := s.ql + 64, qh := s.qh + 32, sc := s.sc + 8, at_ := s.at_ + 128 }
    let half := Q6Reader.half (f16_to_f32 d) (packQ6K d v)
    exact congrArg Q6Reader.y
      ((congrArg half (congrArg advance round1)).trans (congrArg advance round2))
  rw [halves, values2, values1]
  grind

end Values

/-- What the packing steps write is decoded to the codes, the scales and the minima that were
packed, at every index and for every code and scale in the range of the writer. -/
theorem k_quant_layouts_invert {F : Type} [Mul F] [Sub F] [IntCast F] (f16_to_f32 : Nat → F)
    (d dmin : Nat) :
    (∀ v : ClampedQ3K, dqQ3K f16_to_f32 (packQ3K d v) =
      (List.range 256).map fun i =>
        f16_to_f32 d * int (v.l (i / 16)) * int ((v.q i : ℤ) - 4)) ∧
    (∀ v : ClampedQ4K, ∀ y, ∀ i < 256, dqQ4K f16_to_f32 (packQ4K d dmin v) y i =
      f16_to_f32 d * int (v.ls (i / 32)) * int (v.code i) -
        f16_to_f32 dmin * int (v.lm (i / 32))) ∧
    ∀ v : ClampedQ6K, ∀ y, ∀ i < 256, dqQ6K f16_to_f32 (packQ6K d v) y i =
      f16_to_f32 d * int (v.scale (i / 16)) * int ((v.code i : ℤ) - 32) := by
  constructor
  · exact q3_packed_read f16_to_f32 d
  constructor
  · intro v y i inside
    rw [q4_packed_read, if_pos inside]
    rfl
  · intro v y i inside
    rw [q6_packed_read, if_pos inside]
    rfl

end GridcoreRunner.Quant
