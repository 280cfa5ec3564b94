import Mathlib.Data.List.Basic
import Mathlib.Data.List.Count
import Mathlib.Data.List.Induction
import Mathlib.Data.List.Pairwise
import Mathlib.Logic.Function.Basic
import Mathlib.Tactic.Common

/-!
# Stable sorting in arrays

Insertion from the back, which sorts by falling rank, and a counting pass, which groups by a small
key. Both keep the order of what they do not tell apart, so the first match in a group is the first
match in the whole list.
-/

namespace GridcoreRunner.StableSort

set_option autoImplicit false

variable {α : Type*}

section Insertion

variable (rank : α → Nat)

/-- A key moves over the items of smaller rank in front of it. The items are listed from the
last. -/
def insertBack (key : α) : List α → List α
  | [] => [key]
  | a :: front => if rank a < rank key then a :: insertBack key front else key :: a :: front

def insertionSort (items : List α) : List α :=
  (items.foldl (fun front key => insertBack rank key front) []).reverse

/-- Of a higher rank, or of the same and before. -/
def Ahead (before : α → α → Prop) (a b : α) : Prop :=
  rank b < rank a ∨ (rank a = rank b ∧ before a b)

variable {rank}

theorem insert_back_perm (key : α) (front : List α) :
    (insertBack rank key front).Perm (key :: front) := by
  induction front with
  | nil => exact List.Perm.refl _
  | cons a front induction =>
      rw [insertBack]
      split_ifs with smaller
      · exact (List.Perm.cons a induction).trans (List.Perm.swap key a front)
      · exact List.Perm.refl _

theorem insert_back_ahead {before : α → α → Prop} {key : α} {front : List α}
    (sorted : front.Pairwise fun a b => Ahead rank before b a)
    (last : ∀ a ∈ front, before a key) :
    (insertBack rank key front).Pairwise fun a b => Ahead rank before b a := by
  induction front with
  | nil => exact List.pairwise_singleton _ _
  | cons a front induction =>
      obtain ⟨head, rest⟩ := List.pairwise_cons.mp sorted
      rw [insertBack]
      split_ifs with smaller
      · have earlier := induction rest fun b inside => last b (List.mem_cons_of_mem a inside)
        apply List.pairwise_cons.mpr
        refine ⟨?_, earlier⟩
        intro b inside
        rcases List.mem_cons.mp ((insert_back_perm key front).mem_iff.mp inside) with here | there
        · rw [here]
          exact Or.inl smaller
        · exact head b there
      · apply List.pairwise_cons.mpr
        refine ⟨?_, sorted⟩
        intro b inside
        have high : rank key ≤ rank b := by
          have first : rank key ≤ rank a := by omega
          rcases List.mem_cons.mp inside with here | there
          · rw [here]
            exact first
          · rcases head b there with above | ⟨same, _⟩
            · omega
            · omega
        have order := last b inside
        by_cases above : rank key < rank b
        · exact Or.inl above
        · exact Or.inr ⟨by omega, order⟩

theorem insertion_sort_perm (items : List α) : (insertionSort rank items).Perm items := by
  unfold insertionSort
  apply (List.reverse_perm _).trans
  induction items using List.reverseRecOn with
  | nil => exact List.Perm.refl _
  | append_singleton items key induction =>
      rw [List.foldl_append, List.foldl_cons, List.foldl_nil]
      apply (insert_back_perm key _).trans
      apply (List.Perm.cons key induction).trans
      exact (List.perm_append_singleton key items).symm

theorem insertion_sort_ahead {before : α → α → Prop} {items : List α}
    (order : items.Pairwise before) :
    (insertionSort rank items).Pairwise (Ahead rank before) := by
  unfold insertionSort
  rw [List.pairwise_reverse]
  induction items using List.reverseRecOn with
  | nil => exact List.Pairwise.nil
  | append_singleton items key induction =>
      obtain ⟨earlier, _, last⟩ := List.pairwise_append.mp order
      rw [List.foldl_append, List.foldl_cons, List.foldl_nil]
      apply insert_back_ahead (induction earlier)
      intro a inside
      have sorted : (insertionSort rank items).Perm items := insertion_sort_perm items
      have member : a ∈ items := by
        apply sorted.mem_iff.mp
        rw [insertionSort, List.mem_reverse]
        exact inside
      exact last a member key (List.mem_singleton.mpr rfl)

/-- The first match is ahead of every other. -/
theorem find_ahead {before : α → α → Prop} {items : List α} {test : α → Bool} {a : α}
    (sorted : items.Pairwise (Ahead rank before)) (found : items.find? test = some a) :
    ∀ b ∈ items, test b = true → b = a ∨ Ahead rank before a b := by
  obtain ⟨passes, front, back, shape, skipped⟩ := List.find?_eq_some_iff_append.mp found
  intro b inside match_
  rw [shape] at inside sorted
  rcases List.mem_append.mp inside with early | late
  · have skip := skipped b early
    rw [match_] at skip
    cases skip
  · rcases List.mem_cons.mp late with here | there
    · exact Or.inl here
    · have behind := (List.pairwise_append.mp sorted).2.1
      exact Or.inr ((List.pairwise_cons.mp behind).1 b there)

end Insertion

section Counting

variable (key : α → Nat)

/-- How often each key occurs, one place up. -/
def tally (items : List α) : Nat → Nat :=
  items.foldl (fun off a => Function.update off (key a + 1) (off (key a + 1) + 1)) fun _ => 0

structure Cursors where
  off : Nat → Nat
  pos : Nat → Nat

def sumRound (cursors : Cursors) (b : Nat) : Cursors where
  off := Function.update cursors.off (b + 1) (cursors.off (b + 1) + cursors.off b)
  pos := Function.update cursors.pos b (cursors.off b)

def sums (buckets : Nat) (off : Nat → Nat) : Cursors :=
  (List.range buckets).foldl sumRound ⟨off, fun _ => 0⟩

structure Placing (α : Type*) where
  out : Nat → α
  pos : Nat → Nat

def placeRound (state : Placing α) (a : α) : Placing α where
  out := Function.update state.out (state.pos (key a)) a
  pos := Function.update state.pos (key a) (state.pos (key a) + 1)

def place (items : List α) (fresh : Nat → α) (pos : Nat → Nat) : Placing α :=
  items.foldl (placeRound key) ⟨fresh, pos⟩

structure Buckets (α : Type*) where
  items : Nat → α
  off : Nat → Nat

/-- The counting pass over `buckets` keys, into memory that holds `fresh`. -/
def countingSort (buckets : Nat) (fresh : Nat → α) (items : List α) : Buckets α :=
  let cursors := sums buckets (tally key items)
  ⟨(place key items fresh cursors.pos).out, cursors.off⟩

def Buckets.group (buckets : Buckets α) (b : Nat) : List α :=
  (List.range' (buckets.off b) (buckets.off (b + 1) - buckets.off b)).map buckets.items

variable {key}

@[simp] theorem sum_round_off (cursors : Cursors) (b : Nat) : (sumRound cursors b).off =
    Function.update cursors.off (b + 1) (cursors.off (b + 1) + cursors.off b) := rfl

@[simp] theorem sum_round_pos (cursors : Cursors) (b : Nat) :
    (sumRound cursors b).pos = Function.update cursors.pos b (cursors.off b) := rfl

@[simp] theorem place_round_out (state : Placing α) (a : α) : (placeRound key state a).out =
    Function.update state.out (state.pos (key a)) a := rfl

@[simp] theorem place_round_pos (state : Placing α) (a : α) : (placeRound key state a).pos =
    Function.update state.pos (key a) (state.pos (key a) + 1) := rfl

theorem tally_zero (items : List α) : tally key items 0 = 0 := by
  unfold tally
  induction items using List.reverseRecOn with
  | nil => rfl
  | append_singleton items a induction =>
      rw [List.foldl_append, List.foldl_cons, List.foldl_nil,
        Function.update_of_ne (Nat.succ_ne_zero _).symm]
      exact induction

theorem tally_succ (items : List α) (b : Nat) :
    tally key items (b + 1) = items.countP fun a => key a == b := by
  unfold tally
  induction items using List.reverseRecOn with
  | nil => rfl
  | append_singleton items a induction =>
      rw [List.foldl_append, List.foldl_cons, List.foldl_nil, List.countP_append,
        List.countP_singleton, ← induction]
      by_cases same : key a = b
      · rw [same, Function.update_self, if_pos (beq_self_eq_true b)]
      · rw [Function.update_of_ne (by omega), if_neg (by simpa using same)]
        rfl

theorem count_below_succ (key : α → Nat) (items : List α) (b : Nat) :
    (items.countP fun a => decide (key a < b + 1)) =
      (items.countP fun a => decide (key a < b)) + items.countP fun a => key a == b := by
  induction items with
  | nil => rfl
  | cons a items induction =>
      rw [List.countP_cons, List.countP_cons, List.countP_cons, induction]
      rcases Nat.lt_trichotomy (key a) b with below | same | above
      · simp [below, Nat.lt_succ_of_lt below, Nat.ne_of_lt below]
        omega
      · simp [same]
        omega
      · simp [Nat.ne_of_gt above, show ¬key a < b + 1 by omega, show ¬key a < b by omega]

/-- After the sums, a bucket begins behind all smaller keys. -/
theorem sums_spec (key : α → Nat) (items : List α) (buckets : Nat) :
    (∀ b ≤ buckets, (sums buckets (tally key items)).off b =
        items.countP fun a => decide (key a < b)) ∧
      (∀ b, buckets < b → (sums buckets (tally key items)).off b = tally key items b) ∧
        ∀ b < buckets, (sums buckets (tally key items)).pos b =
          items.countP fun a => decide (key a < b) := by
  induction buckets with
  | zero =>
      refine ⟨?_, fun _ _ => rfl, fun b never => absurd never (Nat.not_lt_zero b)⟩
      intro b least
      rw [Nat.le_zero.mp least]
      apply (tally_zero items).trans
      simp
  | succ n induction =>
      obtain ⟨reached, ahead, cursors⟩ := induction
      have step : sums (n + 1) (tally key items) = sumRound (sums n (tally key items)) n := by
        rw [sums, List.range_succ, List.foldl_append]
        rfl
      have here := reached n (Nat.le_refl n)
      simp only [step, sum_round_off, sum_round_pos]
      refine ⟨?_, ?_, ?_⟩
      · intro b least
        by_cases last : b = n + 1
        · rw [last, Function.update_self, ahead (n + 1) (Nat.lt_succ_self n), here, tally_succ,
            count_below_succ, Nat.add_comm]
        · rw [Function.update_of_ne last]
          exact reached b (by omega)
      · intro b later
        rw [Function.update_of_ne (by omega)]
        exact ahead b (by omega)
      · intro b below
        by_cases last : b = n
        · rw [last, Function.update_self]
          exact here
        · rw [Function.update_of_ne last]
          exact cursors b (by omega)

/-- Items are placed one behind the other in the room of their bucket. -/
theorem place_spec {room : Nat → Nat} {pos : Nat → Nat} (fresh : Nat → α)
    (apart : ∀ b c i j, i < room b → j < room c → pos b + i = pos c + j → b = c) (items : List α)
    (fits : ∀ b, (items.countP fun a => key a == b) ≤ room b) :
    (∀ b, (place key items fresh pos).pos b = pos b + items.countP fun a => key a == b) ∧
      ∀ b i a, (items.filter fun a => key a == b)[i]? = some a →
        (place key items fresh pos).out (pos b + i) = a := by
  induction items using List.reverseRecOn with
  | nil => exact ⟨fun _ => rfl, fun b i a never => by cases never⟩
  | append_singleton items last induction =>
      have smaller : ∀ b, (items.countP fun a => key a == b) ≤ room b := by
        intro b
        have whole := fits b
        rw [List.countP_append] at whole
        omega
      obtain ⟨cursors, placed⟩ := induction smaller
      have step : place key (items ++ [last]) fresh pos =
          placeRound key (place key items fresh pos) last := by
        rw [place, List.foldl_append]
        rfl
      have free : (items.countP fun a => key a == key last) < room (key last) := by
        have whole := fits (key last)
        rw [List.countP_append, List.countP_singleton, if_pos (beq_self_eq_true _)] at whole
        omega
      simp only [step, place_round_out, place_round_pos]
      constructor
      · intro b
        rw [List.countP_append, List.countP_singleton]
        by_cases same : key last = b
        · rw [← same, Function.update_self, cursors, if_pos (beq_self_eq_true _)]
          omega
        · rw [Function.update_of_ne (fun h => same h.symm), cursors, if_neg (by simpa using same)]
          omega
      · intro b i a at_
        rw [List.filter_append] at at_
        have old (inside : (items.filter fun a => key a == b)[i]? = some a) :
            Function.update (place key items fresh pos).out
              ((place key items fresh pos).pos (key last)) last (pos b + i) = a := by
          have bound := (List.getElem?_eq_some_iff.mp inside).1
          rw [← List.countP_eq_length_filter] at bound
          have fit := smaller b
          rw [Function.update_of_ne]
          · exact placed b i a inside
          · intro clash
            rw [cursors] at clash
            have same := apart b (key last) i _ (by omega) free clash
            rw [same] at clash bound
            omega
        by_cases same : key last = b
        · have one : [last].filter (fun a => key a == b) = [last] := by
            rw [List.filter_cons_of_pos (by simpa using same)]
            rfl
          rw [one] at at_
          by_cases early : i < (items.filter fun a => key a == b).length
          · rw [List.getElem?_append_left early] at at_
            exact old at_
          · rw [List.getElem?_append_right (by omega)] at at_
            have only : i = (items.filter fun a => key a == b).length := by
              have bound := (List.getElem?_eq_some_iff.mp at_).1
              rw [List.length_singleton] at bound
              omega
            rw [only, Nat.sub_self] at at_
            have equal : last = a := Option.some.inj at_
            have size := List.countP_eq_length_filter (p := fun a => key a == b) (l := items)
            rw [only, ← size, ← same, ← cursors, Function.update_self]
            exact equal
        · have nothing : [last].filter (fun a => key a == b) = [] := by
            rw [List.filter_cons_of_neg (by simpa using same)]
            rfl
          rw [nothing, List.append_nil] at at_
          exact old at_

/-- Each group holds the items of its key, in their order. -/
theorem counting_sort_group {buckets : Nat} {items : List α} (fresh : Nat → α)
    (small : ∀ a ∈ items, key a < buckets) {b : Nat} (inside : b < buckets) :
    (countingSort key buckets fresh items).group b = items.filter fun a => key a == b := by
  obtain ⟨begins, _, cursors⟩ := sums_spec key items buckets
  have ends (c : Nat) (least : c < buckets) :
      (sums buckets (tally key items)).off (c + 1) =
        (sums buckets (tally key items)).off c + items.countP fun a => key a == c := by
    rw [begins (c + 1) least, begins c (by omega), count_below_succ]
  have outside (c : Nat) (beyond : ¬c < buckets) : (items.countP fun a => key a == c) = 0 := by
    apply List.countP_eq_zero.mpr
    intro a member
    have bound := small a member
    simp only [beq_iff_eq]
    omega
  have rises {c d : Nat} (order : c ≤ d) :
      (items.countP fun a => decide (key a < c)) ≤ items.countP fun a => decide (key a < d) := by
    apply List.countP_mono_left
    intro a _ below
    have bound : key a < c := of_decide_eq_true below
    exact decide_eq_true (by omega)
  have apart : ∀ c d i j, (i < items.countP fun a => key a == c) →
      (j < items.countP fun a => key a == d) →
        (sums buckets (tally key items)).pos c + i =
          (sums buckets (tally key items)).pos d + j → c = d := by
    intro c d i j first second same
    have insideFirst : c < buckets := by
      by_contra beyond
      rw [outside c beyond] at first
      omega
    have insideSecond : d < buckets := by
      by_contra beyond
      rw [outside d beyond] at second
      omega
    rw [cursors c insideFirst, cursors d insideSecond] at same
    have nextFirst := count_below_succ key items c
    have nextSecond := count_below_succ key items d
    rcases Nat.lt_trichotomy c d with below | equal | above
    · have later := rises (c := c + 1) (d := d) below
      omega
    · exact equal
    · have later := rises (c := d + 1) (d := c) above
      omega
  obtain ⟨_, placed⟩ := place_spec fresh apart items fun _ => Nat.le_refl _
  have size : (countingSort key buckets fresh items).off (b + 1) -
      (countingSort key buckets fresh items).off b =
        (items.filter fun a => key a == b).length := by
    rw [← List.countP_eq_length_filter]
    have next := ends b inside
    change (sums buckets (tally key items)).off (b + 1) - (sums buckets (tally key items)).off b = _
    omega
  have start : (countingSort key buckets fresh items).off b =
      (sums buckets (tally key items)).pos b := by
    rw [cursors b inside]
    exact begins b (by omega)
  rw [Buckets.group, size, start]
  apply List.ext_getElem?
  intro i
  by_cases bound : i < (items.filter fun a => key a == b).length
  · have item := List.getElem?_eq_getElem bound
    rw [List.getElem?_map, List.getElem?_range' bound, item, Option.map_some, Nat.one_mul]
    exact congrArg some (placed b i _ item)
  · rw [List.getElem?_eq_none (by simpa using bound), List.getElem?_eq_none (by simpa using bound)]

/-- What a group leaves out does not match. -/
theorem find_group {items : List α} {group test : α → Bool}
    (inside : ∀ a ∈ items, test a = true → group a = true) :
    (items.filter group).find? test = items.find? test := by
  induction items with
  | nil => rfl
  | cons a items induction =>
      have later := induction fun b member => inside b (List.mem_cons_of_mem a member)
      have here := inside a List.mem_cons_self
      cases match_ : test a with
      | true => rw [List.filter_cons_of_pos (here match_), List.find?_cons_of_pos match_,
          List.find?_cons_of_pos match_]
      | false =>
          rw [List.find?_cons_of_neg (by simp [match_]), ← later]
          by_cases grouped : group a = true
          · rw [List.filter_cons_of_pos grouped, List.find?_cons_of_neg (by simp [match_])]
          · rw [List.filter_cons_of_neg grouped]

end Counting

end GridcoreRunner.StableSort
