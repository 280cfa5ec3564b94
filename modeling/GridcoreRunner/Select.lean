import GridcoreRunner.Causal
import Mathlib.Data.List.Nodup
import Mathlib.Data.List.Sort
import Mathlib.Logic.Equiv.Basic
import Mathlib.Tactic.Common

/-!
# Selection by partitioning

The loops of a quickselect over an array, read as a function from its indices. A sweep
carries a hole between two ends that approach each other; what it moves is a permutation
that stays between them, so a bound that once parts the array parts it ever after.
-/

namespace GridcoreRunner.Selection

set_option autoImplicit false

open GridcoreRunner.Causal

variable {α : Type*}

def exchange (c : Nat → α) (i j : Nat) : Nat → α := fun x => c (Equiv.swap i j x)

/-! ## Rearrangements between two places -/

/-- A rearrangement of what lies between two places. -/
def Shuffled (lo hi : Nat) (c c' : Nat → α) : Prop :=
  ∃ σ : Equiv.Perm Nat, (∀ x, c' x = c (σ x)) ∧ ∀ x, ¬(lo ≤ x ∧ x ≤ hi) → σ x = x

theorem shuffled_refl (lo hi : Nat) (c : Nat → α) : Shuffled lo hi c c :=
  ⟨Equiv.refl Nat, fun _ => rfl, fun _ _ => rfl⟩

theorem Shuffled.trans {lo hi : Nat} {c c' c'' : Nat → α} (first : Shuffled lo hi c c')
    (second : Shuffled lo hi c' c'') : Shuffled lo hi c c'' := by
  rcases first with ⟨σ, moved, outside⟩
  rcases second with ⟨τ, moved', outside'⟩
  refine ⟨τ.trans σ, fun x => ?_, fun x out => ?_⟩
  · rw [moved', moved]
    rfl
  · show σ (τ x) = x
    rw [outside' x out, outside x out]

theorem Shuffled.widen {lo hi lo' hi' : Nat} {c c' : Nat → α} (here : Shuffled lo hi c c')
    (below : lo' ≤ lo) (above : hi ≤ hi') : Shuffled lo' hi' c c' := by
  rcases here with ⟨σ, moved, outside⟩
  exact ⟨σ, moved, fun x out => outside x fun inside =>
    out ⟨below.trans inside.1, inside.2.trans above⟩⟩

theorem exchange_shuffled {lo hi i j : Nat} (c : Nat → α) (first : lo ≤ i ∧ i ≤ hi)
    (second : lo ≤ j ∧ j ≤ hi) : Shuffled lo hi c (exchange c i j) := by
  refine ⟨Equiv.swap i j, fun _ => rfl, fun x out => Equiv.swap_apply_of_ne_of_ne ?_ ?_⟩
  · intro same
    rw [same] at out
    exact out first
  · intro same
    rw [same] at out
    exact out second

/-- What comes to lie between the places has lain between them. -/
theorem perm_inside {lo hi : Nat} {σ : Equiv.Perm Nat} (outside : ∀ x, ¬(lo ≤ x ∧ x ≤ hi) → σ x = x)
    {x : Nat} (inside : lo ≤ x ∧ x ≤ hi) : lo ≤ σ x ∧ σ x ≤ hi := by
  by_contra out
  have same : σ x = x := σ.injective (outside (σ x) out)
  rw [same] at out
  exact out inside

theorem Shuffled.at_ {lo hi : Nat} {c c' : Nat → α} (here : Shuffled lo hi c c') {x : Nat}
    (out : ¬(lo ≤ x ∧ x ≤ hi)) : c' x = c x := by
  rcases here with ⟨σ, moved, outside⟩
  rw [moved, outside x out]

theorem Shuffled.perm {lo hi n : Nat} {c c' : Nat → α} (here : Shuffled lo hi c c') (below : hi < n) :
    (cells c' n).Perm (cells c n) := by
  rcases here with ⟨σ, moved, outside⟩
  have places : ((List.range n).map σ).Perm (List.range n) := by
    rw [List.perm_ext_iff_of_nodup (List.nodup_range.map σ.injective) List.nodup_range]
    intro y
    rw [List.mem_map, List.mem_range]
    have bounded : ∀ x, σ x < n ↔ x < n := by
      intro x
      by_cases inside : lo ≤ x ∧ x ≤ hi
      · have image := perm_inside outside inside
        omega
      · rw [outside x inside]
    constructor
    · rintro ⟨x, member, same⟩
      rw [← same, bounded]
      exact List.mem_range.mp member
    · intro small
      refine ⟨σ.symm y, List.mem_range.mpr ?_, σ.apply_symm_apply y⟩
      rw [← bounded, σ.apply_symm_apply]
      exact small
  have image : cells c' n = ((List.range n).map σ).map c := by
    unfold cells
    rw [List.map_map]
    exact List.map_congr_left fun x _ => moved x
  rw [image]
  exact places.map c

section
variable [LinearOrder α]

/-! ## Partitioning -/

/-- The median of three places goes to the first. -/
def medianToFront (c : Nat → α) (lo mid hi : Nat) : Nat → α :=
  let c := if c mid < c lo then exchange c lo mid else c
  let c := if c hi < c lo then exchange c lo hi else c
  if c mid < c hi then exchange c mid hi else c

/-- `while (i < j && c[j] >= pivot) j--`. -/
def scanDown (c : Nat → α) (pivot : α) (i : Nat) : Nat → Nat
  | 0 => 0
  | j + 1 => if i < j + 1 ∧ pivot ≤ c (j + 1) then scanDown c pivot i j else j + 1

/-- `while (i < j && c[i] <= pivot) i++`. -/
def scanUp (c : Nat → α) (pivot : α) (j i : Nat) : Nat :=
  if i < j ∧ c i ≤ pivot then scanUp c pivot j (i + 1) else i
termination_by j - i

theorem scan_down_spec (c : Nat → α) (pivot : α) {i j : Nat} (le : i ≤ j) :
    i ≤ scanDown c pivot i j ∧ scanDown c pivot i j ≤ j ∧
      (∀ x, scanDown c pivot i j < x → x ≤ j → pivot ≤ c x) ∧
        (i < scanDown c pivot i j → c (scanDown c pivot i j) < pivot) := by
  induction j with
  | zero =>
      unfold scanDown
      exact ⟨le, le_refl _, fun x more less => absurd less (not_le.mpr more),
        fun more => absurd more (Nat.not_lt_zero i)⟩
  | succ j induction =>
      unfold scanDown
      by_cases down : i < j + 1 ∧ pivot ≤ c (j + 1)
      · rw [if_pos down]
        have later := induction (by omega)
        refine ⟨later.1, by omega, fun x more less => ?_, later.2.2.2⟩
        rcases Nat.lt_or_eq_of_le less with before | last
        · exact later.2.2.1 x more (by omega)
        · rw [last]
          exact down.2
      · rw [if_neg down]
        refine ⟨le, le_refl _, fun x more less => absurd less (not_le.mpr more), fun more => ?_⟩
        by_contra large
        exact down ⟨more, not_lt.mp large⟩

theorem scan_up_spec (c : Nat → α) (pivot : α) {j i : Nat} (le : i ≤ j) :
    i ≤ scanUp c pivot j i ∧ scanUp c pivot j i ≤ j ∧
      (∀ x, i ≤ x → x < scanUp c pivot j i → c x ≤ pivot) ∧
        (scanUp c pivot j i < j → pivot < c (scanUp c pivot j i)) := by
  induction gap : j - i generalizing i with
  | zero =>
      unfold scanUp
      rw [if_neg (by omega)]
      exact ⟨le_refl _, le, fun x more less => absurd more (not_le.mpr less), fun less => by omega⟩
  | succ gap' induction =>
      unfold scanUp
      by_cases up : i < j ∧ c i ≤ pivot
      · rw [if_pos up]
        have later := @induction (i + 1) (by omega) (by omega)
        refine ⟨by omega, later.2.1, fun x more less => ?_, later.2.2.2⟩
        rcases Nat.lt_or_eq_of_le more with behind | first
        · exact later.2.2.1 x (by omega) less
        · rw [← first]
          exact up.2
      · rw [if_neg up]
        refine ⟨le_refl _, le, fun x more less => absurd more (not_le.mpr less), fun less => ?_⟩
        by_contra small
        exact up ⟨less, not_lt.mp small⟩

/-- One turn of the sweep: the entry found from above goes into the hole, and the entry
found from below into the hole it leaves. -/
def turn (c : Nat → α) (pivot : α) (i j : Nat) : (Nat → α) × Nat × Nat :=
  let j' := scanDown c pivot i j
  let c := Function.update c i (c j')
  let i' := scanUp c pivot j' i
  (Function.update c j' (c i'), i', j')

/-- What a turn does: the ends approach, and what it leaves outside them is on its side. -/
structure Turned (c : Nat → α) (pivot : α) (i j : Nat) (out : (Nat → α) × Nat × Nat) : Prop where
  low : i ≤ out.2.1
  between : out.2.1 ≤ out.2.2
  high : out.2.2 ≤ j
  nearer : out.2.2 - out.2.1 < j - i
  below : ∀ x, i ≤ x → x < out.2.1 → out.1 x ≤ pivot
  above : ∀ x, out.2.2 < x → x ≤ j → pivot ≤ out.1 x
  moved : Shuffled i j (Function.update c i pivot) (Function.update out.1 out.2.1 pivot)

omit [LinearOrder α] in
/-- Moving the entry at one place into the hole at another exchanges the two. -/
theorem hole_moves (c : Nat → α) (pivot : α) (i j : Nat) :
    Function.update (Function.update c i (c j)) j pivot = exchange (Function.update c i pivot) i j := by
  funext x
  unfold exchange
  by_cases second : x = j
  · rw [second, Function.update_self, Equiv.swap_apply_right, Function.update_self]
  · rw [Function.update_of_ne second]
    by_cases first : x = i
    · rw [first, Function.update_self, Equiv.swap_apply_left]
      by_cases same : j = i
      · exact absurd (first.trans same.symm) second
      · rw [Function.update_of_ne same]
    · rw [Function.update_of_ne first, Equiv.swap_apply_of_ne_of_ne first second,
        Function.update_of_ne first]

theorem turn_spec (c : Nat → α) (pivot : α) {i j : Nat} (apart : i < j) :
    Turned c pivot i j (turn c pivot i j) := by
  unfold turn
  dsimp only
  have down := scan_down_spec c pivot (Nat.le_of_lt apart)
  generalize scanDown c pivot i j = j' at down
  generalize front : Function.update c i (c j') = c₁
  have up := scan_up_spec c₁ pivot down.1
  generalize scanUp c₁ pivot j' i = i' at up
  have first : Shuffled i j (Function.update c i pivot) (Function.update c₁ j' pivot) := by
    rw [← front, hole_moves]
    exact exchange_shuffled _ ⟨le_refl _, Nat.le_of_lt apart⟩ ⟨down.1, down.2.1⟩
  have second : Shuffled i j (Function.update c₁ j' pivot)
      (Function.update (Function.update c₁ j' (c₁ i')) i' pivot) := by
    rw [hole_moves]
    exact exchange_shuffled _ ⟨down.1, down.2.1⟩ ⟨up.1, up.2.1.trans down.2.1⟩
  refine ⟨up.1, up.2.1, down.2.1, ?_, fun x more less => ?_, fun x more less => ?_, first.trans second⟩
  · -- one of the two ends has moved
    show j' - i' < j - i
    by_cases same : i' = i ∧ j' = j
    · have fell : c j' < pivot := down.2.2.2 (by omega)
      have rose : pivot < c₁ i' := up.2.2.2 (by omega)
      rw [same.1, ← front, Function.update_self] at rose
      exact absurd fell (not_lt.mpr (le_of_lt rose))
    · have ends := down.2.1
      have starts := up.1
      have crossed := up.2.1
      omega
  · have before : x < i' := less
    show Function.update c₁ j' (c₁ i') x ≤ pivot
    rw [Function.update_of_ne (by omega)]
    exact up.2.2.1 x more before
  · have behind : j' < x := more
    show pivot ≤ Function.update c₁ j' (c₁ i') x
    rw [Function.update_of_ne (by omega), ← front, Function.update_of_ne (by omega)]
    exact down.2.2.1 x behind less

/-- The sweep: turns until the ends meet, at the hole. -/
def sweep (c : Nat → α) (pivot : α) (i j : Nat) : (Nat → α) × Nat :=
  if apart : i < j then
    have _ := (turn_spec c pivot apart).nearer
    sweep (turn c pivot i j).1 pivot (turn c pivot i j).2.1 (turn c pivot i j).2.2
  else (c, i)
termination_by j - i

/-- What a sweep does: its hole parts the entries by the pivot. -/
structure Swept (c : Nat → α) (pivot : α) (i j : Nat) (out : (Nat → α) × Nat) : Prop where
  low : i ≤ out.2
  high : out.2 ≤ j
  below : ∀ x, i ≤ x → x < out.2 → out.1 x ≤ pivot
  above : ∀ x, out.2 < x → x ≤ j → pivot ≤ out.1 x
  moved : Shuffled i j (Function.update c i pivot) (Function.update out.1 out.2 pivot)

theorem sweep_spec (c : Nat → α) (pivot : α) {i j : Nat} (le : i ≤ j) :
    Swept c pivot i j (sweep c pivot i j) := by
  induction gap : j - i using Nat.strong_induction_on generalizing c i j with
  | _ gap induction =>
      unfold sweep
      by_cases apart : i < j
      · rw [dif_pos apart]
        dsimp only
        have step := turn_spec c pivot apart
        generalize turn c pivot i j = out at step
        have later := induction (out.2.2 - out.2.1) (by rw [← gap]; exact step.nearer) out.1
          step.between rfl
        generalize sweep out.1 pivot out.2.1 out.2.2 = last at later
        have steady : ∀ x, ¬(out.2.1 ≤ x ∧ x ≤ out.2.2) → last.1 x = out.1 x := by
          intro x outside
          have same := later.moved.at_ outside
          have low := later.low
          have high := later.high
          rw [Function.update_of_ne (by omega), Function.update_of_ne (by omega)] at same
          exact same
        have low := step.low
        have high := step.high
        have low' := later.low
        have high' := later.high
        refine ⟨by omega, by omega, fun x more less => ?_, fun x more less => ?_, ?_⟩
        · by_cases inner : out.2.1 ≤ x
          · exact later.below x inner less
          · rw [steady x (by omega)]
            exact step.below x more (by omega)
        · by_cases inner : x ≤ out.2.2
          · exact later.above x more inner
          · rw [steady x (by omega)]
            exact step.above x (by omega) less
        · exact step.moved.trans (later.moved.widen step.low step.high)
      · rw [dif_neg apart]
        exact ⟨le_refl _, le, fun x more less => absurd more (not_le.mpr less),
          fun x more less => by omega, shuffled_refl _ _ _⟩

/-- One round of the selection: the pivot comes to its final place. -/
def partitionAt (c : Nat → α) (lo hi : Nat) : (Nat → α) × Nat :=
  let c := medianToFront c lo (lo + (hi - lo) / 2) hi
  let out := sweep c (c lo) lo hi
  (Function.update out.1 out.2 (c lo), out.2)

theorem median_shuffled (c : Nat → α) {lo mid hi : Nat} (first : lo ≤ mid) (second : mid ≤ hi) :
    Shuffled lo hi c (medianToFront c lo mid hi) := by
  have one : ∀ (c : Nat → α) (test : Prop) [Decidable test] {i j : Nat}, lo ≤ i ∧ i ≤ hi →
      lo ≤ j ∧ j ≤ hi → Shuffled lo hi c (if test then exchange c i j else c) := by
    intro c test _ i j inside inside'
    split
    · exact exchange_shuffled c inside inside'
    · exact shuffled_refl _ _ _
  have low : lo ≤ lo ∧ lo ≤ hi := ⟨le_refl _, first.trans second⟩
  have middle : lo ≤ mid ∧ mid ≤ hi := ⟨first, second⟩
  have high : lo ≤ hi ∧ hi ≤ hi := ⟨first.trans second, le_refl _⟩
  exact ((one c _ low middle).trans (one _ _ low high)).trans (one _ _ middle high)

structure Partitioned (c : Nat → α) (lo hi : Nat) (out : (Nat → α) × Nat) : Prop where
  low : lo ≤ out.2
  high : out.2 ≤ hi
  below : ∀ x, lo ≤ x → x < out.2 → out.1 x ≤ out.1 out.2
  above : ∀ x, out.2 < x → x ≤ hi → out.1 out.2 ≤ out.1 x
  moved : Shuffled lo hi c out.1

theorem partition_spec (c : Nat → α) {lo hi : Nat} (le : lo ≤ hi) :
    Partitioned c lo hi (partitionAt c lo hi) := by
  have median := @median_shuffled _ _ c lo (lo + (hi - lo) / 2) hi (by omega) (by omega)
  unfold partitionAt
  dsimp only
  generalize medianToFront c lo (lo + (hi - lo) / 2) hi = front at median
  have swept := sweep_spec front (front lo) le
  generalize sweep front (front lo) lo hi = out at swept
  have moved := swept.moved
  rw [Function.update_eq_self] at moved
  refine ⟨swept.low, swept.high, fun x more less => ?_, fun x more less => ?_, median.trans moved⟩
  · have before : x < out.2 := less
    show Function.update out.1 out.2 (front lo) x ≤ Function.update out.1 out.2 (front lo) out.2
    rw [Function.update_self, Function.update_of_ne (by omega)]
    exact swept.below x more before
  · have behind : out.2 < x := more
    show Function.update out.1 out.2 (front lo) out.2 ≤ Function.update out.1 out.2 (front lo) x
    rw [Function.update_self, Function.update_of_ne (by omega)]
    exact swept.above x behind less

/-! ## Selecting -/

/-- The places from `lo` up to `stop` are still to be partitioned. -/
def selectFrom (k : Nat) (c : Nat → α) (lo stop : Nat) : Nat → α :=
  if open_ : lo + 1 < stop then
    have _ := (partition_spec c (show lo ≤ stop - 1 by omega)).low
    have _ := (partition_spec c (show lo ≤ stop - 1 by omega)).high
    if k ≤ (partitionAt c lo (stop - 1)).2 then
      selectFrom k (partitionAt c lo (stop - 1)).1 lo (partitionAt c lo (stop - 1)).2
    else selectFrom k (partitionAt c lo (stop - 1)).1 ((partitionAt c lo (stop - 1)).2 + 1) stop
  else c
termination_by stop - lo

def selectTopk (c : Nat → α) (n k : Nat) : Nat → α := selectFrom k c 0 n

/-- Nothing in front of the bound is above what lies behind it. -/
def Parted (n : Nat) (c : Nat → α) (bound : Nat) : Prop :=
  ∀ x, x < bound → ∀ y, bound ≤ y → y < n → c x ≤ c y

/-- What is moved between two places keeps a bound outside them. -/
theorem Parted.shuffled {n lo hi bound : Nat} {c c' : Nat → α} (parted : Parted n c bound)
    (moved : Shuffled lo hi c c') (small : hi < n) (outside : bound ≤ lo ∨ hi < bound) :
    Parted n c' bound := by
  rcases moved with ⟨σ, moved, fixed⟩
  have side : ∀ x, (x < bound ↔ σ x < bound) ∧ (x < n ↔ σ x < n) := by
    intro x
    by_cases inside : lo ≤ x ∧ x ≤ hi
    · have image := perm_inside fixed inside
      omega
    · rw [fixed x inside]
      exact ⟨Iff.rfl, Iff.rfl⟩
  intro x less y more below
  rw [moved, moved]
  apply parted (σ x) ((side x).1.mp less) (σ y) _ ((side y).2.mp below)
  rw [← not_lt, ← (side y).1, not_lt]
  exact more

/-- The place of the pivot parts the array, before it and behind it. -/
theorem partition_parts {n lo hi : Nat} {c : Nat → α} {out : (Nat → α) × Nat}
    (spec : Partitioned c lo hi out) (small : hi < n) (front : Parted n c lo)
    (back : Parted n c (hi + 1)) : Parted n out.1 out.2 ∧ Parted n out.1 (out.2 + 1) := by
  have front' := front.shuffled spec.moved small (Or.inl (le_refl _))
  have back' := back.shuffled spec.moved small (Or.inr (Nat.lt_succ_self _))
  have low := spec.low
  have high := spec.high
  have before : ∀ x, x < out.2 → out.1 x ≤ out.1 out.2 := by
    intro x less
    by_cases inside : lo ≤ x
    · exact spec.below x inside less
    · exact front' x (by omega) out.2 low (by omega)
  have behind : ∀ y, out.2 < y → y < n → out.1 out.2 ≤ out.1 y := by
    intro y more below
    by_cases inside : y ≤ hi
    · exact spec.above y more inside
    · exact back' out.2 (by omega) y (by omega) below
  constructor
  · intro x less y more below
    rcases Nat.lt_or_eq_of_le more with later | here
    · exact (before x less).trans (behind y later below)
    · rw [← here]
      exact before x less
  · intro x less y more below
    rcases Nat.lt_or_eq_of_le (Nat.le_of_lt_succ less) with earlier | here
    · exact (before x earlier).trans (behind y more below)
    · rw [here]
      exact behind y more below

theorem select_from_spec {n k : Nat} (c : Nat → α) {lo stop : Nat} (small : stop ≤ n)
    (front : Parted n c lo) (back : Parted n c stop) (low : lo ≤ k) (high : k ≤ stop ∨ stop = n) :
    (cells (selectFrom k c lo stop) n).Perm (cells c n) ∧ Parted n (selectFrom k c lo stop) k := by
  induction gap : stop - lo using Nat.strong_induction_on generalizing c lo stop with
  | _ gap induction =>
      unfold selectFrom
      by_cases open_ : lo + 1 < stop
      · rw [dif_pos open_]
        have spec := partition_spec c (show lo ≤ stop - 1 by omega)
        have behind : stop - 1 + 1 = stop := by omega
        have parts := partition_parts spec (by omega) front (by rw [behind]; exact back)
        have keeps := spec.moved.perm (show stop - 1 < n by omega)
        have first := spec.low
        have last := spec.high
        dsimp only
        by_cases left : k ≤ (partitionAt c lo (stop - 1)).2
        · rw [if_pos left]
          have inner := induction _ (by omega) (partitionAt c lo (stop - 1)).1
            (show (partitionAt c lo (stop - 1)).2 ≤ n by omega)
            (front.shuffled spec.moved (by omega) (Or.inl (le_refl _))) parts.1 low (Or.inl left) rfl
          exact ⟨inner.1.trans keeps, inner.2⟩
        · rw [if_neg left]
          have inner := induction _ (by omega) (partitionAt c lo (stop - 1)).1 small parts.2
            (back.shuffled spec.moved (by omega) (Or.inr (by omega))) (by omega) high rfl
          exact ⟨inner.1.trans keeps, inner.2⟩
      · rw [dif_neg open_]
        refine ⟨List.Perm.refl _, ?_⟩
        -- the bound is one of the two ends, or lies behind the whole array
        rcases Nat.lt_or_ge k stop with inside | past
        · rw [show k = lo by omega]
          exact front
        · rcases high with le | whole
          · rw [show k = stop by omega]
            exact back
          · intro x _ y more below
            omega

/-- For every array the selection is a permutation, and parts it at `k`. -/
theorem select_topk_spec (c : Nat → α) (n k : Nat) :
    (cells (selectTopk c n k) n).Perm (cells c n) ∧ Parted n (selectTopk c n k) k := by
  apply select_from_spec c (le_refl n) _ _ (Nat.zero_le k) (Or.inr rfl)
  · intro x less
    exact absurd less (Nat.not_lt_zero x)
  · intro x _ y more below
    exact absurd more (not_le.mpr below)

/-! ## Fronts of the sorted array -/

theorem sort_unique {l s : List α} (perm : s.Perm l) (sorted : s.Pairwise (· ≤ ·)) :
    l.insertionSort (· ≤ ·) = s := by
  apply List.Perm.eq_of_sortedLE
  · exact List.sortedLE_iff_pairwise.mpr (List.pairwise_insertionSort (· ≤ ·) l)
  · exact List.sortedLE_iff_pairwise.mpr sorted
  · exact (List.perm_insertionSort (· ≤ ·) l).trans perm.symm

/-- Sorting what the selection puts in front is sorting all and taking the front. -/
theorem select_sorted (c : Nat → α) {n k : Nat} (le : k ≤ n) :
    (cells (selectTopk c n k) k).insertionSort (· ≤ ·) =
      ((cells c n).insertionSort (· ≤ ·)).take k := by
  have spec := select_topk_spec c n k
  have front := cells_take (selectTopk c n k) n k le
  have split := List.take_append_drop k (cells (selectTopk c n k) n)
  have size : ((cells (selectTopk c n k) k).insertionSort (· ≤ ·)).length = k := by
    rw [List.length_insertionSort, cells_length]
  rw [front] at split
  have whole : (cells c n).insertionSort (· ≤ ·) =
      (cells (selectTopk c n k) k).insertionSort (· ≤ ·) ++
        ((cells (selectTopk c n k) n).drop k).insertionSort (· ≤ ·) := by
    apply sort_unique
    · refine List.Perm.trans ?_ spec.1
      have parts := (List.perm_insertionSort (· ≤ ·) (cells (selectTopk c n k) k)).append
        (List.perm_insertionSort (· ≤ ·) ((cells (selectTopk c n k) n).drop k))
      rw [split] at parts
      exact parts
    · rw [List.pairwise_append]
      refine ⟨List.pairwise_insertionSort _ _, List.pairwise_insertionSort _ _, ?_⟩
      intro a before b behind
      rw [List.mem_insertionSort] at before behind
      rcases List.mem_map.mp before with ⟨x, less, same⟩
      rcases List.mem_iff_getElem.mp behind with ⟨y, inside, same'⟩
      rw [List.length_drop, cells_length] at inside
      rw [List.getElem_drop] at same'
      have value : (cells (selectTopk c n k) n)[k + y]? = some (selectTopk c n k (k + y)) :=
        cells_get _ _ _ (by omega)
      have there : b = selectTopk c n k (k + y) := by
        rw [List.getElem?_eq_some_iff] at value
        rcases value with ⟨_, value⟩
        exact same'.symm.trans value
      rw [← same, there]
      exact spec.2 x (List.mem_range.mp less) (k + y) (by omega) (by omega)
  rw [whole, List.take_left' size]

/-- What a test keeps of a sorted list is its front, if the test keeps all below. -/
theorem filter_front {test : α → Bool} (down : ∀ a b, a ≤ b → test b = true → test a = true)
    {s : List α} (sorted : s.Pairwise (· ≤ ·)) : s.filter test = s.take (s.filter test).length := by
  induction s with
  | nil => rfl
  | cons a s induction =>
      rcases List.pairwise_cons.mp sorted with ⟨least, later⟩
      cases here : test a with
      | true =>
          rw [List.filter_cons_of_pos here, List.length_cons, List.take_succ_cons, ← induction later]
      | false =>
          have none_ : s.filter test = [] := by
            apply List.filter_eq_nil_iff.mpr
            intro b member kept
            rw [down a b (least b member) kept] at here
            cases here
          rw [List.filter_cons_of_neg (by rw [here]; decide), none_]
          rfl

theorem filter_behind {test : α → Bool} (down : ∀ a b, a ≤ b → test b = true → test a = true)
    {s : List α} (sorted : s.Pairwise (· ≤ ·)) : ∀ b ∈ s.drop (s.filter test).length, test b = false := by
  induction s with
  | nil =>
      intro b never
      rw [List.drop_nil] at never
      cases never
  | cons a s induction =>
      rcases List.pairwise_cons.mp sorted with ⟨least, later⟩
      cases here : test a with
      | true =>
          rw [List.filter_cons_of_pos here, List.length_cons, List.drop_succ_cons]
          exact induction later
      | false =>
          intro b member
          rw [← Bool.not_eq_true]
          intro kept
          rcases List.mem_cons.mp (List.mem_of_mem_drop member) with same | behind
          · rw [same, here] at kept
            cases kept
          · rw [down a b (least b behind) kept] at here
            cases here

theorem sort_behind {test : α → Bool} (down : ∀ a b, a ≤ b → test b = true → test a = true)
    (l : List α) : ∀ b ∈ (l.insertionSort (· ≤ ·)).drop (l.filter test).length, test b = false := by
  have kept := ((List.perm_insertionSort (· ≤ ·) l).filter test).length_eq
  rw [← kept]
  exact filter_behind down (List.pairwise_insertionSort (· ≤ ·) l)

theorem sort_filter {test : α → Bool} (down : ∀ a b, a ≤ b → test b = true → test a = true)
    (l : List α) : (l.filter test).insertionSort (· ≤ ·) =
      (l.insertionSort (· ≤ ·)).take (l.filter test).length := by
  have kept : ((l.insertionSort (· ≤ ·)).filter test).Perm (l.filter test) :=
    (List.perm_insertionSort (· ≤ ·) l).filter test
  rw [← kept.length_eq, ← filter_front down (List.pairwise_insertionSort (· ≤ ·) l)]
  exact sort_unique kept ((List.pairwise_insertionSort (· ≤ ·) l).filter _)

end

end GridcoreRunner.Selection
