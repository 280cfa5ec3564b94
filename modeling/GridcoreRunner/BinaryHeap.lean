import Mathlib.Order.Lattice.Nat
import Mathlib.Tactic.Common

/-!
# A binary heap in an array

The two sifting loops over an array, read as a function from its indices, and what
they keep: the entries, and the order of every child and its parent. The order is
that of a rank in a linear order; `better` is the comparison a program computes.
-/

namespace BinaryHeap

set_option autoImplicit false

variable {α ω : Type}

def swapAt (e : Nat → α) (i j : Nat) : Nat → α := fun k =>
  if k = i then e j else if k = j then e i else e k

/-- Exchanges the entry at `i` with its parents while it is better than they are.
`i` rounds are enough. -/
def siftUp (better : α → α → Bool) : Nat → (Nat → α) → Nat → (Nat → α)
  | 0, e, _ => e
  | rounds + 1, e, i =>
      if i = 0 then e
      else if better (e i) (e ((i - 1) / 2)) then
        siftUp better rounds (swapAt e ((i - 1) / 2) i) ((i - 1) / 2)
      else e

/-- The best of a place and its children among the first `n`. -/
def bestChild (better : α → α → Bool) (e : Nat → α) (n i : Nat) : Nat :=
  let a := 2 * i + 1
  let best := if a < n ∧ better (e a) (e i) then a else i
  if a + 1 < n ∧ better (e (a + 1)) (e best) then a + 1 else best

/-- Exchanges the entry at `i` with its best child while one is better. `n` rounds
are enough. -/
def siftDown (better : α → α → Bool) (n : Nat) : Nat → (Nat → α) → Nat → (Nat → α)
  | 0, e, _ => e
  | rounds + 1, e, i =>
      let best := bestChild better e n i
      if best = i then e else siftDown better n rounds (swapAt e best i) best

/-- An entry among the first `n`. -/
def Holds (e : Nat → α) (n : Nat) (x : α) : Prop := ∃ i, i < n ∧ e i = x

section

variable [LinearOrder ω] (rank : α → ω)

/-- No child ranks below its parent. -/
def Ordered (e : Nat → α) (n : Nat) : Prop :=
  ∀ i, 0 < i → i < n → rank (e ((i - 1) / 2)) ≤ rank (e i)

/-- Ordered but for the entry at `hole`, which may rank below its parent. -/
structure UpOrder (e : Nat → α) (n hole : Nat) : Prop where
  other : ∀ i, 0 < i → i < n → i ≠ hole → rank (e ((i - 1) / 2)) ≤ rank (e i)
  grand : ∀ i, 0 < hole → 0 < i → i < n → (i - 1) / 2 = hole →
    rank (e ((hole - 1) / 2)) ≤ rank (e i)

/-- Ordered but for the entry at `hole`, which may rank above its children. -/
structure DownOrder (e : Nat → α) (n hole : Nat) : Prop where
  other : ∀ i, 0 < i → i < n → (i - 1) / 2 ≠ hole → rank (e ((i - 1) / 2)) ≤ rank (e i)
  grand : ∀ i, 0 < hole → 0 < i → i < n → (i - 1) / 2 = hole →
    rank (e ((hole - 1) / 2)) ≤ rank (e i)

variable {rank}

/-! ## Exchanging two entries -/

theorem holds_swap {e : Nat → α} {n i j : Nat} (below_i : i < n) (below_j : j < n) (x : α) :
    Holds (swapAt e i j) n x ↔ Holds e n x := by
  constructor
  · rintro ⟨k, below, at_k⟩
    unfold swapAt at at_k
    split_ifs at at_k with first second
    · exact ⟨j, below_j, at_k⟩
    · exact ⟨i, below_i, at_k⟩
    · exact ⟨k, below, at_k⟩
  · rintro ⟨k, below, at_k⟩
    by_cases first : k = i
    · subst first
      refine ⟨j, below_j, ?_⟩
      unfold swapAt
      by_cases same : j = k
      · rw [if_pos same, same, at_k]
      · rw [if_neg same, if_pos rfl, at_k]
    · by_cases second : k = j
      · subst second
        exact ⟨i, below_i, by simp [swapAt, at_k]⟩
      · exact ⟨k, below, by simp [swapAt, first, second, at_k]⟩

theorem up_order_swap {e : Nat → α} {n hole : Nat} (inside : hole < n) (above : 0 < hole)
    (order : UpOrder rank e n hole) (better : rank (e hole) < rank (e ((hole - 1) / 2))) :
    UpOrder rank (swapAt e ((hole - 1) / 2) hole) n ((hole - 1) / 2) := by
  have parent_below : (hole - 1) / 2 < hole := by omega
  constructor
  · intro i positive below away
    unfold swapAt
    by_cases here : i = hole
    · subst here
      simp only [if_neg away]
      exact le_of_lt (by simpa using better)
    · have order_i := order.other i positive below here
      by_cases child : (i - 1) / 2 = hole
      · have grand := order.grand i above positive below child
        have not_parent : hole ≠ (hole - 1) / 2 := by omega
        simp only [child, if_neg not_parent, if_neg here, if_neg away]
        exact grand
      · by_cases sibling : (i - 1) / 2 = (hole - 1) / 2
        · rw [sibling] at order_i
          simp only [sibling, if_neg here, if_neg away]
          exact le_trans (le_of_lt better) order_i
        · simp only [if_neg sibling, if_neg child, if_neg here, if_neg away]
          exact order_i
  · intro i parent_positive positive below child
    have grand_away : ((hole - 1) / 2 - 1) / 2 ≠ (hole - 1) / 2 := by omega
    have grand_not_hole : ((hole - 1) / 2 - 1) / 2 ≠ hole := by omega
    have parent_order := order.other ((hole - 1) / 2) parent_positive (by omega) (by omega)
    have i_away : i ≠ (hole - 1) / 2 := by omega
    unfold swapAt
    simp only [if_neg grand_away, if_neg grand_not_hole, if_neg i_away]
    split_ifs with here
    · exact parent_order
    · have order_i := order.other i positive below here
      rw [child] at order_i
      exact le_trans parent_order order_i

theorem ordered_of_up {e : Nat → α} {n hole : Nat} (order : UpOrder rank e n hole)
    (stops : 0 < hole → rank (e ((hole - 1) / 2)) ≤ rank (e hole)) : Ordered rank e n := by
  intro i positive below
  by_cases here : i = hole
  · subst here
    exact stops positive
  · exact order.other i positive below here

theorem down_order_swap {e : Nat → α} {n hole best : Nat} (positive : 0 < best) (below : best < n)
    (child : (best - 1) / 2 = hole) (order : DownOrder rank e n hole)
    (better : rank (e best) < rank (e hole))
    (least : ∀ i, 0 < i → i < n → (i - 1) / 2 = hole → rank (e best) ≤ rank (e i)) :
    DownOrder rank (swapAt e best hole) n best := by
  have hole_below : hole < best := by omega
  constructor
  · intro i i_positive i_below away
    unfold swapAt
    by_cases at_best : i = best
    · subst at_best
      have not_best : ¬(i - 1) / 2 = i := by omega
      rw [if_neg not_best, if_pos child, if_pos rfl]
      exact le_of_lt better
    · by_cases at_hole : i = hole
      · subst at_hole
        have parent_other : ¬(i - 1) / 2 = i := by omega
        rw [if_neg away, if_neg parent_other, if_neg at_best, if_pos rfl]
        have grand := order.grand best i_positive positive below child
        exact grand
      · rw [if_neg away, if_neg at_best, if_neg at_hole]
        by_cases under : (i - 1) / 2 = hole
        · rw [if_pos under]
          exact least i i_positive i_below under
        · rw [if_neg under]
          exact order.other i i_positive i_below under
  · intro i best_positive i_positive i_below under
    have order_i := order.other i i_positive i_below (by omega)
    unfold swapAt
    have parent_away : ¬(best - 1) / 2 = best := by omega
    have i_away : i ≠ best := by omega
    have i_away' : i ≠ hole := by omega
    rw [if_neg parent_away, if_pos child, if_neg i_away, if_neg i_away']
    rw [under] at order_i
    exact order_i

theorem ordered_of_down {e : Nat → α} {n hole : Nat} (order : DownOrder rank e n hole)
    (stops : ∀ i, 0 < i → i < n → (i - 1) / 2 = hole → rank (e hole) ≤ rank (e i)) :
    Ordered rank e n := by
  intro i positive below
  by_cases under : (i - 1) / 2 = hole
  · rw [under]
    exact stops i positive below under
  · exact order.other i positive below under

/-! ## The loops -/

variable {better : α → α → Bool}

theorem sift_up_holds (e : Nat → α) (n i rounds : Nat) (inside : i < n) (x : α) :
    Holds (siftUp better rounds e i) n x ↔ Holds e n x := by
  induction rounds generalizing e i with
  | zero => rfl
  | succ rounds ih =>
      unfold siftUp
      split_ifs with bottom climbs
      · rfl
      · rw [ih _ _ (by omega)]
        exact holds_swap (by omega) inside x
      · rfl

theorem sift_up_ordered (agrees : ∀ a b, better a b = decide (rank a < rank b)) (e : Nat → α)
    (n i rounds : Nat) (inside : i < n) (enough : i ≤ rounds) (order : UpOrder rank e n i) :
    Ordered rank (siftUp better rounds e i) n := by
  induction rounds generalizing e i with
  | zero =>
      have bottom : i = 0 := by omega
      exact ordered_of_up order (by omega)
  | succ rounds ih =>
      unfold siftUp
      split_ifs with bottom climbs
      · exact ordered_of_up order (by omega)
      · rw [agrees] at climbs
        have worse := of_decide_eq_true climbs
        apply ih _ _ (by omega) (by omega)
        exact up_order_swap inside (by omega) order worse
      · rw [agrees] at climbs
        apply ordered_of_up order
        intro positive
        simpa using climbs

theorem best_child_cases (e : Nat → α) (n i : Nat) :
    bestChild better e n i = i ∨
      (bestChild better e n i = 2 * i + 1 ∧ 2 * i + 1 < n) ∨
      (bestChild better e n i = 2 * i + 2 ∧ 2 * i + 2 < n) := by
  unfold bestChild
  grind

theorem best_child_least (agrees : ∀ a b, better a b = decide (rank a < rank b)) (e : Nat → α)
    (n i : Nat) :
    rank (e (bestChild better e n i)) ≤ rank (e i) ∧
      ∀ j, 0 < j → j < n → (j - 1) / 2 = i → rank (e (bestChild better e n i)) ≤ rank (e j) := by
  simp only [bestChild, agrees, decide_eq_true_eq]
  -- the choice between the place and its left child, then that against the right child
  generalize left_eq :
    (if 2 * i + 1 < n ∧ rank (e (2 * i + 1)) < rank (e i) then 2 * i + 1 else i) = left
  have left_here : rank (e left) ≤ rank (e i) := by
    rw [← left_eq]
    split_ifs with first
    · exact le_of_lt first.2
    · exact le_refl _
  have left_child : 2 * i + 1 < n → rank (e left) ≤ rank (e (2 * i + 1)) := by
    intro below
    rw [← left_eq]
    split_ifs with first
    · exact le_refl _
    · exact not_lt.mp fun lower => first ⟨below, lower⟩
  generalize last_eq :
    (if 2 * i + 1 + 1 < n ∧ rank (e (2 * i + 1 + 1)) < rank (e left) then 2 * i + 1 + 1
      else left) = last
  have last_left : rank (e last) ≤ rank (e left) := by
    rw [← last_eq]
    split_ifs with second
    · exact le_of_lt second.2
    · exact le_refl _
  have last_child : 2 * i + 1 + 1 < n → rank (e last) ≤ rank (e (2 * i + 1 + 1)) := by
    intro below
    rw [← last_eq]
    split_ifs with second
    · exact le_refl _
    · exact not_lt.mp fun lower => second ⟨below, lower⟩
  constructor
  · exact le_trans last_left left_here
  · intro j positive below under
    have children : j = 2 * i + 1 ∨ j = 2 * i + 1 + 1 := by omega
    rcases children with first | second
    · subst first
      exact le_trans last_left (left_child below)
    · subst second
      exact last_child below

theorem sift_down_holds (e : Nat → α) (n i rounds : Nat) (inside : i < n) (x : α) :
    Holds (siftDown better n rounds e i) n x ↔ Holds e n x := by
  induction rounds generalizing e i with
  | zero => rfl
  | succ rounds ih =>
      unfold siftDown
      rcases @best_child_cases α better e n i with same | ⟨left, below⟩ | ⟨right, below⟩
      · simp only [same, if_pos]
      · simp only [left, if_neg (show ¬2 * i + 1 = i by omega)]
        rw [ih _ _ below]
        exact holds_swap below inside x
      · simp only [right, if_neg (show ¬2 * i + 2 = i by omega)]
        rw [ih _ _ below]
        exact holds_swap below inside x

theorem sift_down_ordered (agrees : ∀ a b, better a b = decide (rank a < rank b)) (e : Nat → α)
    (n i rounds : Nat) (enough : n ≤ rounds + i) (order : DownOrder rank e n i) :
    Ordered rank (siftDown better n rounds e i) n := by
  induction rounds generalizing e i with
  | zero =>
      apply ordered_of_down order
      intro j positive below under
      omega
  | succ rounds ih =>
      have least := best_child_least agrees e n i
      unfold siftDown
      by_cases stays : bestChild better e n i = i
      · rw [stays] at least
        simp only [stays, if_pos]
        exact ordered_of_down order least.2
      · have strict : rank (e (bestChild better e n i)) < rank (e i) := by
          revert stays
          simp only [bestChild, agrees, decide_eq_true_eq]
          grind
        simp only [if_neg stays]
        have child : 0 < bestChild better e n i ∧ bestChild better e n i < n ∧
            (bestChild better e n i - 1) / 2 = i := by
          rcases @best_child_cases α better e n i with same | ⟨left, below⟩ | ⟨right, below⟩
          · exact absurd same stays
          · omega
          · omega
        apply ih _ _ (by omega)
        exact down_order_swap child.1 child.2.1 child.2.2 order strict least.2

/-- The root ranks lowest. -/
theorem root_least {e : Nat → α} {n : Nat} (order : Ordered rank e n) (i : Nat) (below : i < n) :
    rank (e 0) ≤ rank (e i) := by
  induction i using Nat.strong_induction_on with
  | _ i ih =>
      rcases Nat.eq_zero_or_pos i with root | positive
      · rw [root]
      · exact le_trans (ih ((i - 1) / 2) (by omega) (by omega)) (order i positive below)

end

end BinaryHeap
