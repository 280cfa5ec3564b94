import GridcoreRunner.Fields
import GridcoreRunner.Scatter
import Mathlib.Logic.Function.Basic
import Mathlib.Tactic.Common
import Mathlib.Tactic.IntervalCases
import Mathlib.Tactic.NormNum

/-!
# Packing the K-quant blocks

The packing steps of `quantize_row_q3_K`, `quantize_row_q4_K` and `quantize_row_q6_K`, store
by store into a block that starts as zeroes. The codes and the group scales a writer packs
are structures that hold them in the range it clamps them to. For every field of a block one
lemma says which codes or scales the bytes of it hold.
-/

namespace GridcoreRunner.Quant

set_option autoImplicit false

open Fields

/-- `if (l < lo) l = lo; if (l > hi) l = hi;` -/
def clamp (lo hi l : ℤ) : ℤ :=
  let l := if l < lo then lo else l
  if hi < l then hi else l

theorem clamp_range {lo hi : ℤ} (ordered : lo ≤ hi) (l : ℤ) :
    lo ≤ clamp lo hi l ∧ clamp lo hi l ≤ hi := by
  unfold clamp
  grind

/-- The bytes `memset` leaves. -/
def zeroes : Nat → Nat := fun _ => 0

/-! ## Q3_K -/

structure BlockQ3K where
  hmask : Nat → Nat
  qs : Nat → Nat
  scales : Nat → Nat
  d : Nat

/-- Codes `l + 4` for `l` clamped to `-4..3`, scales clamped to `-32..31`. -/
structure ClampedQ3K where
  q : Nat → Nat
  l : Nat → ℤ
  codes : ∀ j, q j < 8
  scales : ∀ j, -32 ≤ l j ∧ l j ≤ 31

/-- What the writer hands to its packing steps for the integers it rounded to. -/
def ClampedQ3K.ofInts (code scale : Nat → ℤ) : ClampedQ3K where
  q j := (clamp (-4) 3 (code j) + 4).toNat
  l j := clamp (-32) 31 (scale j)
  codes j := by
    have range := clamp_range (show (-4 : ℤ) ≤ 3 by omega) (code j)
    omega
  scales j := clamp_range (by omega) (scale j)

/-- The round of one group: four bits of its scale to one byte, the other two to a shared one. -/
def q3ScaleRound (l : Nat → Nat) (scales : Nat → Nat) (j : Nat) : Nat → Nat :=
  let placed :=
    if j < 8 then Function.update scales j (u8 (l j &&& 15))
    else Function.update scales (j - 8) (u8 (scales (j - 8) ||| u8 ((l j &&& 15) <<< 4)))
  Function.update placed (j % 4 + 8)
    (u8 (placed (j % 4 + 8) ||| u8 ((l j >>> 4) <<< (2 * (j / 4)))))

/-- What the loop over the high bits carries. -/
structure HmaskLoop where
  m : Nat
  hm : Nat
  hmask : Nat → Nat
  q : Nat → Nat

def HmaskLoop.start (q : Nat → Nat) : HmaskLoop := ⟨0, 1, zeroes, q⟩

def HmaskLoop.advance (s : HmaskLoop) : HmaskLoop :=
  if s.m + 1 = 32 then { s with m := 0, hm := u8 (s.hm <<< 1) } else { s with m := s.m + 1 }

def HmaskLoop.round (s : HmaskLoop) (j : Nat) : HmaskLoop :=
  let s :=
    if 3 < s.q j then
      { s with
        hmask := Function.update s.hmask s.m (u8 (s.hmask s.m ||| s.hm))
        q := Function.update s.q j (s.q j - 4) }
    else s
  s.advance

def q3QsRound (q : Nat → Nat) (j : Nat) (qs : Nat → Nat) (k : Nat) : Nat → Nat :=
  Function.update qs (j / 4 + k) (u8 (q (j + k) ||| q (j + k + 32) <<< 2 |||
    q (j + k + 64) <<< 4 ||| q (j + k + 96) <<< 6))

def highBits (v : ClampedQ3K) : HmaskLoop :=
  (List.range 256).foldl HmaskLoop.round (HmaskLoop.start v.q)

def packQ3K (d : Nat) (v : ClampedQ3K) : BlockQ3K where
  d := d
  scales := (List.range 16).foldl (q3ScaleRound fun j => (v.l j + 32).toNat) zeroes
  hmask := (highBits v).hmask
  qs := [0, 128].foldl (fun qs j => (List.range 32).foldl (q3QsRound (highBits v).q j) qs) zeroes

/-! ## Q4_K -/

structure BlockQ4K where
  d : Nat
  dmin : Nat
  scales : Nat → Nat
  qs : Nat → Nat

/-- Codes clamped to `0..15`, scales and minima to at most 63. -/
structure ClampedQ4K where
  code : Nat → Nat
  ls : Nat → Nat
  lm : Nat → Nat
  codes : ∀ j, code j < 16
  scales : ∀ j, ls j < 64
  minima : ∀ j, lm j < 64

/-- `if (ls > 63) ls = 63;` of a byte. -/
def clampSix (n : Nat) : Nat := if 63 < u8 n then 63 else u8 n

def ClampedQ4K.ofInts (q : Nat → ℤ) (ls lm : Nat → Nat) : ClampedQ4K where
  code j := (clamp 0 15 (q j)).toNat
  ls j := clampSix (ls j)
  lm j := clampSix (lm j)
  codes j := by
    have range := clamp_range (show (0 : ℤ) ≤ 15 by omega) (q j)
    omega
  scales j := by
    unfold clampSix
    grind
  minima j := by
    unfold clampSix
    grind

def q4ScaleRound (ls lm : Nat → Nat) (scales : Nat → Nat) (j : Nat) : Nat → Nat :=
  if j < 4 then
    Function.update (Function.update scales j (ls j)) (j + 4) (lm j)
  else
    let low := Function.update scales (j + 4) (u8 ((ls j &&& 15) ||| (lm j &&& 15) <<< 4))
    let first := Function.update low (j - 4) (u8 (low (j - 4) ||| u8 ((ls j >>> 4) <<< 6)))
    Function.update first j (u8 (first j ||| u8 ((lm j >>> 4) <<< 6)))

/-- `base` is the pointer `qs`, which goes on by 32 with every round of the outer loop. -/
def q4QsRound (code : Nat → Nat) (j base : Nat) (qs : Nat → Nat) (l : Nat) : Nat → Nat :=
  Function.update qs (base + l) (u8 (code (j + l) ||| code (j + l + 32) <<< 4))

def packQ4K (d dmin : Nat) (v : ClampedQ4K) : BlockQ4K where
  d := d
  dmin := dmin
  scales := (List.range 8).foldl (q4ScaleRound v.ls v.lm) zeroes
  qs := ([0, 64, 128, 192].foldl
    (fun s j => ((List.range 32).foldl (q4QsRound v.code j s.2) s.1, s.2 + 32)) (zeroes, 0)).1

/-! ## Q6_K -/

structure BlockQ6K where
  ql : Nat → Nat
  qh : Nat → Nat
  scales : Nat → ℤ
  d : Nat

/-- Codes `l + 32` for `l` clamped to `-32..31`, scales an `int8_t` holds. -/
structure ClampedQ6K where
  code : Nat → Nat
  scale : Nat → ℤ
  codes : ∀ j, code j < 64
  scales : ∀ j, -128 ≤ scale j ∧ scale j ≤ 127

def ClampedQ6K.ofInts (l : Nat → ℤ) (scale : Nat → ℤ) : ClampedQ6K where
  code j := (clamp (-32) 31 (l j) + 32).toNat
  scale j := clamp (-128) 127 (scale j)
  codes j := by
    have range := clamp_range (show (-32 : ℤ) ≤ 31 by omega) (l j)
    omega
  scales j := clamp_range (by omega) (scale j)

/-- The cast to `int8_t`. -/
def i8 (l : ℤ) : ℤ := l.bmod 256

theorem i8_inside {l : ℤ} (above : -128 ≤ l) (below : l ≤ 127) : i8 l = l := by
  unfold i8
  rw [Int.bmod_def]
  omega

def q6ScaleRound (l : Nat → ℤ) (scales : Nat → ℤ) (j : Nat) : Nat → ℤ :=
  Function.update scales j (i8 (if l j < 127 then l j else 127))

/-- The block and the pointers `ql` and `qh` as places in it. -/
structure Q6Loop where
  ql : Nat → Nat
  qh : Nat → Nat
  low : Nat
  high : Nat

def Q6Loop.round (code : Nat → Nat) (j : Nat) (s : Q6Loop) (k : Nat) : Q6Loop :=
  let q1 := u8 (code (j + k) &&& 15)
  let q2 := u8 (code (j + k + 32) &&& 15)
  let q3 := u8 (code (j + k + 64) &&& 15)
  let q4 := u8 (code (j + k + 96) &&& 15)
  let first := Function.update s.ql (s.low + k) (u8 (q1 ||| q3 <<< 4))
  { s with
    ql := Function.update first (s.low + (k + 32)) (u8 (q2 ||| q4 <<< 4))
    qh := Function.update s.qh (s.high + k)
      (u8 (code (j + k) >>> 4 ||| (code (j + k + 32) >>> 4) <<< 2 |||
        (code (j + k + 64) >>> 4) <<< 4 ||| (code (j + k + 96) >>> 4) <<< 6)) }

def Q6Loop.half (code : Nat → Nat) (s : Q6Loop) (j : Nat) : Q6Loop :=
  let s := (List.range 32).foldl (Q6Loop.round code j) s
  { s with low := s.low + 64, high := s.high + 32 }

def packQ6K (d : Nat) (v : ClampedQ6K) : BlockQ6K :=
  let s := [0, 128].foldl (Q6Loop.half v.code) ⟨zeroes, zeroes, 0, 0⟩
  { ql := s.ql
    qh := s.qh
    scales := (List.range 16).foldl (q6ScaleRound v.scale) fun _ => 0
    d := d }

/-! ## What the bytes of Q3_K hold -/

theorem q3_scale_low (v : ClampedQ3K) (d : Nat) {j : Nat} (group : j < 8) :
    (packQ3K d v).scales j = (v.l j + 32).toNat % 16 + (v.l (j + 8) + 32).toNat % 16 * 16 := by
  have stored : (packQ3K d v).scales j =
      u8 (u8 ((v.l j + 32).toNat &&& 15) ||| u8 (((v.l (j + 8) + 32).toNat &&& 15) <<< 4)) := by
    interval_cases j <;> rfl
  rw [stored, mask_four, mask_four, u8_small (n := (v.l j + 32).toNat % 16) (by omega)]
  have room : ((v.l (j + 8) + 32).toNat % 16) <<< 4 < 256 := by
    rw [Nat.shiftLeft_eq]
    omega
  rw [u8_small room]
  exact nibbles (by omega) (by omega)

theorem q3_scale_high (v : ClampedQ3K) (d : Nat) {k : Nat} (group : k < 4) :
    (packQ3K d v).scales (8 + k) =
      (v.l k + 32).toNat / 16 + (v.l (k + 4) + 32).toNat / 16 * 4 +
        (v.l (k + 8) + 32).toNat / 16 * 16 + (v.l (k + 12) + 32).toNat / 16 * 64 := by
  have two : ∀ j, (v.l j + 32).toNat >>> 4 < 4 := by
    intro j
    have range := v.scales j
    rw [Nat.shiftRight_eq_div_pow]
    omega
  have stored : (packQ3K d v).scales (8 + k) =
      u8 (u8 (u8 (u8 (0 ||| u8 (((v.l k + 32).toNat >>> 4) <<< 0)) |||
        u8 (((v.l (k + 4) + 32).toNat >>> 4) <<< 2)) |||
        u8 (((v.l (k + 8) + 32).toNat >>> 4) <<< 4)) |||
        u8 (((v.l (k + 12) + 32).toNat >>> 4) <<< 6)) := by
    interval_cases k <;> rfl
  rw [stored, pairs_stored (two k) (two (k + 4)) (two (k + 8)) (two (k + 12))]
  simp only [Nat.shiftRight_eq_div_pow]

/-- Where the loop over the high bits is after `n` rounds, and what it has done. -/
def HmaskLoop.After (v : ClampedQ3K) (n : Nat) (s : HmaskLoop) : Prop :=
  s.m = n % 32 ∧ s.hm = u8 (2 ^ (n / 32)) ∧
    (∀ j, s.q j = if j < n ∧ 3 < v.q j then v.q j - 4 else v.q j) ∧
    ∀ i t, (s.hmask i).testBit t =
      decide (i < 32 ∧ t < 8 ∧ i + 32 * t < n ∧ 3 < v.q (i + 32 * t))

theorem HmaskLoop.advance_after {n : Nat} {s : HmaskLoop} (place : s.m = n % 32)
    (bit : s.hm = u8 (2 ^ (n / 32))) :
    s.advance.m = (n + 1) % 32 ∧ s.advance.hm = u8 (2 ^ ((n + 1) / 32)) := by
  unfold HmaskLoop.advance
  by_cases wraps : s.m + 1 = 32
  · have next : (n + 1) / 32 = n / 32 + 1 := by omega
    have twice : 2 ^ (n / 32) % 256 * 2 % 256 = 2 ^ (n / 32) * 2 % 256 := by omega
    rw [if_pos wraps, next]
    constructor
    · change 0 = (n + 1) % 32
      omega
    · change u8 (s.hm <<< 1) = u8 (2 ^ (n / 32 + 1))
      rw [bit, Nat.shiftLeft_eq, Nat.pow_succ]
      exact twice
  · have same : (n + 1) / 32 = n / 32 := by omega
    rw [if_neg wraps, same]
    constructor
    · change s.m + 1 = (n + 1) % 32
      omega
    · exact bit

theorem HmaskLoop.advance_keeps (s : HmaskLoop) :
    s.advance.q = s.q ∧ s.advance.hmask = s.hmask := by
  unfold HmaskLoop.advance
  by_cases wraps : s.m + 1 = 32
  · rw [if_pos wraps]
    exact ⟨rfl, rfl⟩
  · rw [if_neg wraps]
    exact ⟨rfl, rfl⟩

theorem HmaskLoop.round_after {v : ClampedQ3K} {n : Nat} {s : HmaskLoop} (within : n < 256)
    (before : s.After v n) : (s.round n).After v (n + 1) := by
  obtain ⟨place, bit, codes, masks⟩ := before
  have here : s.q n = v.q n := by
    rw [codes n, if_neg (by omega)]
  unfold HmaskLoop.round
  rw [here]
  by_cases high : 3 < v.q n
  · rw [if_pos high]
    set t : HmaskLoop := { s with
      hmask := Function.update s.hmask s.m (u8 (s.hmask s.m ||| s.hm))
      q := Function.update s.q n (v.q n - 4) } with stored
    obtain ⟨sameQ, sameMask⟩ := t.advance_keeps
    obtain ⟨placeNext, bitNext⟩ := HmaskLoop.advance_after (s := t) place bit
    refine ⟨placeNext, bitNext, ?_, ?_⟩
    · intro j
      rw [sameQ]
      change Function.update s.q n (v.q n - 4) j = _
      by_cases last : j = n
      · rw [last, Function.update_self, if_pos ⟨by omega, high⟩]
      · rw [Function.update_of_ne last, codes j]
        exact if_congr (by omega) rfl rfl
    · intro i t'
      rw [sameMask]
      change (Function.update s.hmask s.m (u8 (s.hmask s.m ||| s.hm)) i).testBit t' = _
      have small : u8 (2 ^ (n / 32)) = 2 ^ (n / 32) := by
        apply u8_small
        calc 2 ^ (n / 32) ≤ 2 ^ 7 := Nat.pow_le_pow_right (by omega) (by omega)
          _ < 256 := by omega
      by_cases byte : i = s.m
      · rw [byte, Function.update_self, u8_bit, bit, small, or_bit, masks s.m t', place]
        by_cases last : t' = n / 32
        · have index : n % 32 + 32 * (n / 32) = n := by omega
          rw [last, index]
          grind
        · grind
      · rw [Function.update_of_ne byte, masks i t', decide_eq_decide]
        have other : i < 32 → i + 32 * t' ≠ n := by omega
        grind
  · rw [if_neg high]
    obtain ⟨sameQ, sameMask⟩ := s.advance_keeps
    obtain ⟨placeNext, bitNext⟩ := HmaskLoop.advance_after place bit
    refine ⟨placeNext, bitNext, ?_, ?_⟩
    · intro j
      rw [sameQ, codes j]
      grind
    · intro i t
      rw [sameMask, masks i t, decide_eq_decide]
      grind

theorem hmask_rounds (v : ClampedQ3K) {n : Nat} (within : n ≤ 256) :
    ((List.range n).foldl HmaskLoop.round (HmaskLoop.start v.q)).After v n := by
  induction n with
  | zero =>
      refine ⟨rfl, rfl, ?_, ?_⟩
      · intro j
        exact (if_neg (by omega)).symm
      · intro i t
        rw [decide_eq_false (by omega)]
        exact Nat.zero_testBit t
  | succ n induction =>
      rw [List.range_succ, List.foldl_append]
      exact HmaskLoop.round_after (by omega) (induction (by omega))

theorem highBits_after (v : ClampedQ3K) : (highBits v).After v 256 :=
  hmask_rounds v (Nat.le_refl 256)

theorem q3_hmask (v : ClampedQ3K) (d : Nat) {i t : Nat} (byte : i < 32) (bit : t < 8) :
    ((packQ3K d v).hmask i).testBit t = decide (3 < v.q (i + 32 * t)) := by
  have masks := (highBits_after v).2.2.2 i t
  have inside : i < 32 ∧ t < 8 ∧ i + 32 * t < 256 ∧ 3 < v.q (i + 32 * t) ↔
      3 < v.q (i + 32 * t) := by omega
  unfold packQ3K
  rw [masks, decide_eq_decide]
  exact inside

/-- The loop leaves the low two bits of every code. -/
theorem q3_low (v : ClampedQ3K) {j : Nat} (within : j < 256) :
    (highBits v).q j = v.q j % 4 := by
  have codes := (highBits_after v).2.2.1 j
  have small := v.codes j
  rw [codes]
  by_cases high : 3 < v.q j
  · rw [if_pos ⟨within, high⟩]
    omega
  · rw [if_neg (by omega)]
    omega

theorem q3_qs (v : ClampedQ3K) (d : Nat) {half k : Nat} (which : half < 2) (place : k < 32) :
    (packQ3K d v).qs (32 * half + k) =
      v.q (128 * half + k) % 4 + v.q (128 * half + k + 32) % 4 * 4 +
        v.q (128 * half + k + 64) % 4 * 16 + v.q (128 * half + k + 96) % 4 * 64 := by
  have packed : ∀ j, j + 127 < 256 → j % 128 = 0 → j = 128 * half →
      (packQ3K d v).qs (32 * half + k) = u8 (v.q (j + k) % 4 ||| (v.q (j + k + 32) % 4) <<< 2 |||
        (v.q (j + k + 64) % 4) <<< 4 ||| (v.q (j + k + 96) % 4) <<< 6) := by
    intro j inside aligned start
    rw [← q3_low v (show j + k < 256 by omega), ← q3_low v (show j + k + 32 < 256 by omega),
      ← q3_low v (show j + k + 64 < 256 by omega), ← q3_low v (show j + k + 96 < 256 by omega)]
    unfold packQ3K q3QsRound
    simp only [List.foldl_cons, List.foldl_nil, Table.stores_at]
    grind
  rw [packed (128 * half) (by omega) (by omega) rfl]
  exact pairs (by omega) (by omega) (by omega) (by omega)

/-! ## What the bytes of Q4_K hold -/

/-- The upper two bits of six, as a field of the byte above six others. -/
theorem six_two_stored {a b : Nat} (low : a < 64) (high : b < 64) :
    u8 (a ||| u8 ((b >>> 4) <<< 6)) = a + b / 16 * 64 := by
  rw [Nat.shiftRight_eq_div_pow]
  exact store_field (show a < 2 ^ 6 by omega) (by omega)

theorem q4_scales (v : ClampedQ4K) (d dmin : Nat) {j : Nat} (group : j < 4) :
    (packQ4K d dmin v).scales j = v.ls j + v.ls (j + 4) / 16 * 64 ∧
      (packQ4K d dmin v).scales (4 + j) = v.lm j + v.lm (j + 4) / 16 * 64 ∧
      (packQ4K d dmin v).scales (8 + j) = v.ls (j + 4) % 16 + v.lm (j + 4) % 16 * 16 := by
  have first : (packQ4K d dmin v).scales j = u8 (v.ls j ||| u8 ((v.ls (j + 4) >>> 4) <<< 6)) := by
    interval_cases j <;> rfl
  have second : (packQ4K d dmin v).scales (4 + j) =
      u8 (v.lm j ||| u8 ((v.lm (j + 4) >>> 4) <<< 6)) := by
    interval_cases j <;> rfl
  have third : (packQ4K d dmin v).scales (8 + j) =
      u8 ((v.ls (j + 4) &&& 15) ||| (v.lm (j + 4) &&& 15) <<< 4) := by
    interval_cases j <;> rfl
  rw [first, second, third, six_two_stored (v.scales j) (v.scales (j + 4)),
    six_two_stored (v.minima j) (v.minima (j + 4)), mask_four, mask_four,
    nibbles (by omega) (by omega)]
  exact ⟨rfl, rfl, rfl⟩

theorem q4_qs (v : ClampedQ4K) (d dmin : Nat) {quarter l : Nat} (which : quarter < 4)
    (place : l < 32) :
    (packQ4K d dmin v).qs (32 * quarter + l) =
      v.code (64 * quarter + l) + v.code (64 * quarter + l + 32) * 16 := by
  have packed : ∀ j, j < 256 → j % 64 = 0 → j = 64 * quarter →
      (packQ4K d dmin v).qs (32 * quarter + l) =
        u8 (v.code (j + l) ||| v.code (j + l + 32) <<< 4) := by
    intro j inside aligned start
    unfold packQ4K q4QsRound
    simp only [List.foldl_cons, List.foldl_nil, Table.stores_at]
    grind
  rw [packed (64 * quarter) (by omega) (by omega) rfl]
  exact nibbles (v.codes (64 * quarter + l)) (v.codes (64 * quarter + l + 32))

/-! ## What the bytes of Q6_K hold -/

theorem q6_scales (v : ClampedQ6K) (d : Nat) {j : Nat} (group : j < 16) :
    (packQ6K d v).scales j = v.scale j := by
  have stored : (packQ6K d v).scales j = i8 (if v.scale j < 127 then v.scale j else 127) := by
    interval_cases j <;> rfl
  have range := v.scales j
  rw [stored]
  by_cases below : v.scale j < 127
  · rw [if_pos below]
    exact i8_inside range.1 range.2
  · rw [if_neg below, i8_inside (by omega) (by omega)]
    omega

/-- What the loop over half a block has stored after `n` rounds. -/
theorem Q6Loop.rounds (v : ClampedQ6K) (j : Nat) (s : Q6Loop) {n : Nat} (within : n ≤ 32) :
    let t := (List.range n).foldl (Q6Loop.round v.code j) s
    t.low = s.low ∧ t.high = s.high ∧
      (∀ i, t.ql i =
        if s.low ≤ i ∧ i < s.low + n then
          v.code (j + (i - s.low)) % 16 + v.code (j + (i - s.low) + 64) % 16 * 16
        else if s.low + 32 ≤ i ∧ i < s.low + 32 + n then
          v.code (j + (i - s.low)) % 16 + v.code (j + (i - s.low) + 64) % 16 * 16
        else s.ql i) ∧
      ∀ i, t.qh i =
        if s.high ≤ i ∧ i < s.high + n then
          v.code (j + (i - s.high)) / 16 + v.code (j + (i - s.high) + 32) / 16 * 4 +
            v.code (j + (i - s.high) + 64) / 16 * 16 + v.code (j + (i - s.high) + 96) / 16 * 64
        else s.qh i := by
  induction n with
  | zero =>
      refine ⟨rfl, rfl, ?_, ?_⟩
      · intro i
        rw [if_neg (by omega), if_neg (by omega)]
        rfl
      · intro i
        rw [if_neg (by omega)]
        rfl
  | succ n induction =>
      obtain ⟨low, high, lowBytes, highBytes⟩ := induction (by omega)
      rw [List.range_succ, List.foldl_append, List.foldl_cons, List.foldl_nil]
      set t := (List.range n).foldl (Q6Loop.round v.code j) s
      have nibble : ∀ i, u8 (v.code i &&& 15) = v.code i % 16 := by
        intro i
        rw [mask_four]
        exact u8_small (by omega)
      have two : ∀ i, v.code i >>> 4 = v.code i / 16 ∧ v.code i / 16 < 4 := by
        intro i
        have small := v.codes i
        rw [Nat.shiftRight_eq_div_pow]
        omega
      refine ⟨low, high, ?_, ?_⟩
      · intro i
        change Function.update (Function.update t.ql (t.low + n) _) (t.low + (n + 32)) _ i = _
        rw [nibble, nibble, nibble, nibble, nibbles (by omega) (by omega),
          nibbles (by omega) (by omega), low]
        by_cases upper : i = s.low + (n + 32)
        · rw [upper, Function.update_self, if_neg (by omega), if_pos (by omega),
            show s.low + (n + 32) - s.low = n + 32 by omega]
          rfl
        · rw [Function.update_of_ne upper]
          by_cases lower : i = s.low + n
          · rw [lower, Function.update_self, if_pos (by omega),
              show s.low + n - s.low = n by omega]
          · rw [Function.update_of_ne lower, lowBytes i]
            grind
      · intro i
        change Function.update t.qh (t.high + n) _ i = _
        rw [(two (j + n)).1, (two (j + n + 32)).1, (two (j + n + 64)).1, (two (j + n + 96)).1,
          pairs (two (j + n)).2 (two (j + n + 32)).2 (two (j + n + 64)).2 (two (j + n + 96)).2,
          high]
        by_cases here : i = s.high + n
        · rw [here, Function.update_self, if_pos (by omega), show s.high + n - s.high = n by omega]
        · rw [Function.update_of_ne here, highBytes i]
          grind

/-- A half of a block as the two outer rounds leave it. -/
theorem q6_bytes (v : ClampedQ6K) (d : Nat) {half k : Nat} (which : half < 2) (place : k < 32) :
    (packQ6K d v).ql (64 * half + k) =
        v.code (128 * half + k) % 16 + v.code (128 * half + k + 64) % 16 * 16 ∧
      (packQ6K d v).ql (64 * half + k + 32) =
        v.code (128 * half + k + 32) % 16 + v.code (128 * half + k + 96) % 16 * 16 ∧
      (packQ6K d v).qh (32 * half + k) =
        v.code (128 * half + k) / 16 + v.code (128 * half + k + 32) / 16 * 4 +
          v.code (128 * half + k + 64) / 16 * 16 + v.code (128 * half + k + 96) / 16 * 64 := by
  obtain ⟨low, high, lowBytes, highBytes⟩ :=
    Q6Loop.rounds v 0 ⟨zeroes, zeroes, 0, 0⟩ (Nat.le_refl 32)
  set first := (List.range 32).foldl (Q6Loop.round v.code 0) ⟨zeroes, zeroes, 0, 0⟩
  obtain ⟨_, _, lowNext, highNext⟩ := Q6Loop.rounds v 128
    { first with low := first.low + 64, high := first.high + 32 } (Nat.le_refl 32)
  have lows : ∀ i, (packQ6K d v).ql i = _ := lowNext
  have highs : ∀ i, (packQ6K d v).qh i = _ := highNext
  simp only [low, high, lowBytes, highBytes] at lows highs
  rw [lows, lows, highs]
  interval_cases half <;> grind

end GridcoreRunner.Quant
