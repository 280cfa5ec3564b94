import GridcoreRunner.Model.Mixer
import Mathlib.Algebra.Order.Group.Nat
import Mathlib.Tactic.Ring

/-!
# The ring of past inputs

The serial core shifts the ring at every token. The chunked core brings it up to date once,
and reads the taps that reach before the call from the ring as it was. Both rings are one
function of the ring before and the number of tokens.
-/

namespace GridcoreRunner.Model.Mixer

set_option autoImplicit false

open Lanes

variable {F D : Type*} (m : Mixer F D)

/-! ## Rows and columns -/

theorem convDim_pos : 0 < m.convDim := by
  have inner := m.innerPos
  unfold Geometry.convDim
  omega

theorem heads_fill : m.nh * m.hd = m.inner := by
  have whole := Nat.div_add_mod m.inner m.nh
  rw [m.headsDivide] at whole
  exact whole

theorem groups_fill : m.ng * m.perG = m.inner := by
  have whole := Nat.div_add_mod m.inner m.ng
  rw [m.groupsDivideInner] at whole
  exact whole

theorem head_group {h : Nat} (inside : h < m.nh) : h / m.gsz < m.ng := by
  have whole := Nat.div_add_mod m.nh m.ng
  rw [m.groupsDivideHeads, Nat.add_zero] at whole
  apply Nat.div_lt_of_lt_mul
  unfold Geometry.gsz
  rw [Nat.mul_comm, whole]
  exact inside

theorem cell_below {rows width row cell : Nat} (row_below : row < rows) (cell_below : cell < width) :
    row * width + cell < rows * width := by
  have next : (row + 1) * width ≤ rows * width := Nat.mul_le_mul_right width row_below
  rw [Nat.succ_mul] at next
  omega

theorem cell_row {width r cell : Nat} (below : cell < width) :
    (r * width + cell) / width = r := by
  have pos : 0 < width := by omega
  rw [Nat.mul_comm, Nat.mul_add_div pos, Nat.div_eq_of_lt below, Nat.add_zero]

theorem cell_column {width r cell : Nat} (below : cell < width) :
    (r * width + cell) % width = cell := by
  rw [Nat.mul_comm, Nat.mul_add_mod, Nat.mod_eq_of_lt below]

/-! ## The ring -/

/-- The ring after `b` tokens: the oldest columns have left it, the newest inputs stand at its
end. -/
def ringOf (ring : Nat → F) (b : Nat) : Nat → F := fun i =>
  if i < m.histn * m.convDim then
    if m.histn ≤ b + i / m.convDim then
      m.qkv ((b + i / m.convDim - m.histn) * m.dInProj + m.inner + i % m.convDim)
    else ring (b * m.convDim + i)
  else ring i

theorem ringOf_zero (ring : Nat → F) : m.ringOf ring 0 = ring := by
  funext i
  unfold ringOf
  by_cases inside : i < m.histn * m.convDim
  · have row : i / m.convDim < m.histn := Nat.div_lt_of_lt_mul (by rwa [Nat.mul_comm])
    rw [if_pos inside, if_neg (by omega), Nat.zero_mul, Nat.zero_add]
  · rw [if_neg inside]

/-- A tap on the ring, after `b` tokens. -/
theorem ringOf_tap (ring : Nat → F) {b k c : Nat} (tap : k < m.histn) (channel : c < m.convDim) :
    m.ringOf ring b (k * m.convDim + c) =
      if m.histn ≤ b + k then m.qkv ((b + k - m.histn) * m.dInProj + m.inner + c)
      else ring ((b + k) * m.convDim + c) := by
  unfold ringOf
  rw [if_pos (cell_below tap channel), cell_row channel, cell_column channel, Nat.add_mul,
    Nat.add_assoc (b * m.convDim)]

theorem ringOf_succ (ring : Nat → F) (b : Nat) (some' : m.histn ≠ 0) :
    copied (copied (m.ringOf ring b) 0 (m.ringOf ring b) m.convDim ((m.histn - 1) * m.convDim))
        ((m.histn - 1) * m.convDim) m.qkv (b * m.dInProj + m.inner) m.convDim =
      m.ringOf ring (b + 1) := by
  have pos := m.convDim_pos
  have columns : m.histn * m.convDim = (m.histn - 1) * m.convDim + m.convDim := by
    rw [← Nat.succ_mul, Nat.succ_eq_add_one, Nat.sub_add_cancel (Nat.pos_of_ne_zero some')]
  funext i
  have split := Nat.div_add_mod i m.convDim
  have column := Nat.mod_lt i pos
  by_cases inside : i < m.histn * m.convDim
  · have row : i / m.convDim < m.histn := Nat.div_lt_of_lt_mul (by rwa [Nat.mul_comm])
    by_cases newest : (m.histn - 1) * m.convDim ≤ i
    · have last : i / m.convDim = m.histn - 1 := by
        have low : m.histn - 1 ≤ i / m.convDim := (Nat.le_div_iff_mul_le pos).mpr newest
        omega
      have offset : i - (m.histn - 1) * m.convDim = i % m.convDim := by
        rw [last, Nat.mul_comm] at split
        omega
      have newest_row : b + 1 + (m.histn - 1) - m.histn = b := by omega
      unfold copied ringOf
      rw [if_pos ⟨newest, by omega⟩, if_pos inside, last, if_pos (by omega), offset, newest_row]
    · have earlier : i / m.convDim + 1 < m.histn := by
        have low := Nat.div_lt_of_lt_mul (by rwa [Nat.mul_comm, ← Nat.not_le] :
          i < m.convDim * (m.histn - 1))
        omega
      have here : m.convDim + (i - 0) = (i / m.convDim + 1) * m.convDim + i % m.convDim := by
        rw [Nat.add_mul, Nat.one_mul, Nat.mul_comm (i / m.convDim)]
        omega
      have self : i = i / m.convDim * m.convDim + i % m.convDim := by
        rw [Nat.mul_comm]
        exact split.symm
      unfold copied
      rw [if_neg (by omega), if_pos ⟨Nat.zero_le i, by omega⟩, here,
        m.ringOf_tap ring earlier column]
      conv_rhs => rw [self, m.ringOf_tap ring row column]
      have same : b + (i / m.convDim + 1) = b + 1 + i / m.convDim := by omega
      rw [same]
  · unfold copied ringOf
    rw [if_neg (by omega), if_neg (by omega), if_neg inside, if_neg inside]

theorem advanceRing_ringOf (b : Nat) (mem : Buffers F) (ring : Nat → F) :
    m.advanceRing b { mem with conv := m.ringOf ring b } =
      { mem with conv := m.ringOf ring (b + 1) } := by
  unfold advanceRing
  by_cases none' : m.histn = 0
  · have still : m.ringOf ring b = m.ringOf ring (b + 1) := by
      funext i
      unfold ringOf
      rw [none', Nat.zero_mul, if_neg (Nat.not_lt_zero i), if_neg (Nat.not_lt_zero i)]
    rw [if_pos none', still]
  · rw [if_neg none']
    simp only [m.ringOf_succ ring b none']

/-- Columns copied one after the other. -/
theorem columns_copied (ring : Nat → F) (first n row : Nat) (i : Nat) :
    loop n (fun r ring => copied ring ((first + r) * m.convDim) m.qkv
        ((row + r) * m.dInProj + m.inner) m.convDim) ring i =
      if first * m.convDim ≤ i ∧ i < (first + n) * m.convDim then
        m.qkv ((row + (i / m.convDim - first)) * m.dInProj + m.inner + i % m.convDim)
      else ring i := by
  have pos := m.convDim_pos
  induction n with
  | zero =>
      rw [loop_zero, Nat.add_zero, if_neg (by omega)]
  | succ n induction =>
      have wider : (first + (n + 1)) * m.convDim = (first + n) * m.convDim + m.convDim := by
        rw [← Nat.add_assoc, Nat.succ_mul]
      have start : first * m.convDim ≤ (first + n) * m.convDim :=
        Nat.mul_le_mul_right _ (Nat.le_add_right first n)
      rw [loop_succ]
      by_cases last : (first + n) * m.convDim ≤ i ∧ i < (first + n) * m.convDim + m.convDim
      · have split := Nat.div_add_mod i m.convDim
        have column := Nat.mod_lt i pos
        have at' : i / m.convDim = first + n := by
          rw [Nat.div_eq_iff pos]
          omega
        have offset : i - (first + n) * m.convDim = i % m.convDim := by
          rw [at', Nat.mul_comm] at split
          omega
        unfold copied
        rw [if_pos last, if_pos (by omega), offset, at', Nat.add_sub_cancel_left]
      · unfold copied
        rw [if_neg last]
        unfold copied at induction
        rw [induction]
        apply if_congr _ rfl rfl
        omega

theorem ringAfter_eq (n : Nat) (mem : Buffers F) :
    m.ringAfter n mem = { mem with conv := m.ringOf mem.conv n } := by
  have pos := m.convDim_pos
  unfold ringAfter
  by_cases none' : m.histn = 0
  · have still : m.ringOf mem.conv n = mem.conv := by
      funext i
      unfold ringOf
      rw [none', Nat.zero_mul, if_neg (Nat.not_lt_zero i)]
    rw [if_pos none', still]
  rw [if_neg none']
  have row_of : ∀ i, i < m.histn * m.convDim → i / m.convDim < m.histn := by
    intro i inside
    exact Nat.div_lt_of_lt_mul (by rwa [Nat.mul_comm])
  by_cases enough : m.histn ≤ n
  · rw [if_pos enough]
    congr 1
    funext i
    have copies := m.columns_copied mem.conv 0 m.histn (n - m.histn) i
    simp only [Nat.zero_add, Nat.zero_mul, Nat.zero_le, true_and, Nat.sub_zero] at copies
    rw [copies]
    unfold ringOf
    by_cases inside : i < m.histn * m.convDim
    · have row := row_of i inside
      rw [if_pos inside, if_pos inside, if_pos (Nat.le_trans enough (Nat.le_add_right _ _)),
        Nat.sub_add_comm enough]
    · rw [if_neg inside, if_neg inside]
  · rw [if_neg enough]
    simp only
    congr 1
    funext i
    have copies := m.columns_copied
      (copied mem.conv 0 mem.conv (n * m.convDim) ((m.histn - n) * m.convDim)) (m.histn - n) n 0 i
    simp only [Nat.zero_add] at copies
    have filled : m.histn - n + n = m.histn := by omega
    rw [filled] at copies
    rw [copies]
    unfold ringOf copied
    by_cases inside : i < m.histn * m.convDim
    · have row := row_of i inside
      by_cases newer : (m.histn - n) * m.convDim ≤ i
      · have low : m.histn - n ≤ i / m.convDim := (Nat.le_div_iff_mul_le pos).mpr newer
        rw [if_pos ⟨newer, inside⟩, if_pos inside, if_pos (by omega)]
        congr 4
        omega
      · have high : i / m.convDim < m.histn - n := Nat.div_lt_of_lt_mul (by
          rw [Nat.mul_comm]
          omega)
        rw [if_neg (by omega), if_pos inside, if_pos (by omega), if_neg (by omega), Nat.sub_zero]
    · have beyond : (m.histn - n) * m.convDim ≤ m.histn * m.convDim :=
        Nat.mul_le_mul_right _ (Nat.sub_le m.histn n)
      rw [if_neg (by omega), if_neg (by omega), if_neg inside]

end GridcoreRunner.Model.Mixer
