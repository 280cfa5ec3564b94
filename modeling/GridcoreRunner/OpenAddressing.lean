import GridcoreRunner.Scatter

/-!
# Open addressing

A row of slots, each empty or with a key. The way of a key begins at the slot its hash
names and goes on from slot to slot, around the end of the row. A key is put at the first
empty slot of its way and no slot is ever emptied, so what a search walks past stays taken:
a search that meets an empty slot has met no key of the row that it looks for.
-/

namespace GridcoreRunner.OpenAddressing

set_option autoImplicit false

variable {α : Type*}

structure Row (α : Type*) where
  cap : Nat
  slot : Nat → Option α

namespace Row

def blank (cap : Nat) : Row α := { cap := cap, slot := fun _ => none }

def put (row : Row α) (i : Nat) (key : α) : Row α :=
  { row with slot := Function.update row.slot i (some key) }

def Holds (row : Row α) (key : α) : Prop := ∃ i < row.cap, row.slot i = some key

/-- How many slots hold a key. -/
def taken (row : Row α) : Nat := Table.count Option.isSome row.cap row.slot

/-- The search from slot `i` for an empty slot or a key that passes; `wrap` brings an index
back into the row. -/
def probe (passes : α → Bool) (wrap : Nat → Nat) (row : Row α) : Nat → Nat → Option Nat
  | 0, _ => none
  | rounds + 1, i =>
      match row.slot i with
      | none => some i
      | some key => if passes key then some i else probe passes wrap row rounds (wrap (i + 1))

/-- One key is moved to a new row. -/
def move (hash : α → Nat) (wrap : Nat → Nat) (row : Row α) (slot : Option α) : Option (Row α) :=
  match slot with
  | none => some row
  | some key =>
      (probe (fun _ => false) wrap row row.cap (wrap (hash key))).map fun i => row.put i key

/-- All keys are moved to a new row of `cap` slots. -/
def rehash (hash : α → Nat) (wrap : Nat → Nat) (old : Row α) (cap : Nat) : Option (Row α) :=
  (List.range old.cap).foldlM (fun row i => move hash wrap row (old.slot i)) (blank cap)

/-! ## Keys on their way -/

/-- Slot `i` is on the way of a key with this hash, behind taken slots only. -/
def OnWay (row : Row α) (start i : Nat) : Prop :=
  ∃ d < row.cap, i = (start + d) % row.cap ∧
    ∀ k < d, (row.slot ((start + k) % row.cap)).isSome = true

/-- Every key is on its way. -/
def Sound (hash : α → Nat) (row : Row α) : Prop :=
  ∀ i < row.cap, ∀ key, row.slot i = some key → row.OnWay (hash key) i

theorem blank_sound (hash : α → Nat) (cap : Nat) : Sound hash (blank cap) := by
  intro i _ key held
  cases held

theorem blank_holds (cap : Nat) (key : α) : ¬(blank cap).Holds key := by
  rintro ⟨i, _, held⟩
  cases held

theorem blank_taken (cap : Nat) : (blank cap : Row α).taken = 0 :=
  Table.count_zero fun _ _ => rfl

/-- A row with fewer keys than slots has an empty one. -/
theorem empty_slot {row : Row α} (room : row.taken < row.cap) :
    ∃ i < row.cap, row.slot i = none := by
  by_contra full
  push Not at full
  have all : row.taken = row.cap := by
    unfold taken
    rw [Table.count_eq_length, List.filter_eq_self.mpr, List.length_range]
    intro i inside
    exact Option.isSome_iff_ne_none.mpr (full i (List.mem_range.mp inside))
  omega

/-! ## Searching -/

/-- The search ends at this slot. -/
def Stops (passes : α → Bool) (row : Row α) (i : Nat) : Prop :=
  ∀ key, row.slot i = some key → passes key = true

section Probe

variable {passes : α → Bool} {wrap : Nat → Nat} {row : Row α}

/-- A search ends at the first slot of the way where it can. -/
theorem probe_first (wraps : ∀ n, wrap n = n % row.cap) {rounds start d : Nat}
    (inside : start < row.cap) (stops : Stops passes row ((start + d) % row.cap))
    (enough : d < rounds) :
    ∃ e ≤ d, probe passes wrap row rounds start = some ((start + e) % row.cap) ∧
      Stops passes row ((start + e) % row.cap) ∧
      ∀ k < e, ∃ key, row.slot ((start + k) % row.cap) = some key ∧ passes key = false := by
  induction rounds generalizing start d with
  | zero => exact absurd enough (Nat.not_lt_zero d)
  | succ rounds induction =>
      have here : (start + 0) % row.cap = start := Nat.mod_eq_of_lt inside
      unfold probe
      rcases slot : row.slot start with _ | key
      · refine ⟨0, Nat.zero_le d, ?_, ?_, fun k below => absurd below (Nat.not_lt_zero k)⟩
        · rw [here]
        · intro key held
          rw [here, slot] at held
          cases held
      dsimp only
      by_cases found : passes key = true
      · refine ⟨0, Nat.zero_le d, ?_, ?_, fun k below => absurd below (Nat.not_lt_zero k)⟩
        · rw [if_pos found, here]
        · intro other held
          rw [here, slot] at held
          cases held
          exact found
      rw [if_neg found, wraps]
      have later : d ≠ 0 := by
        intro first
        rw [first, here] at stops
        exact found (stops key slot)
      have shift : ∀ k, ((start + 1) % row.cap + k) % row.cap = (start + (k + 1)) % row.cap := by
        intro k
        rw [Nat.mod_add_mod, Nat.add_assoc, Nat.add_comm 1 k]
      have last : (start + (d - 1 + 1)) % row.cap = (start + d) % row.cap := by
        rw [Nat.sub_add_cancel (Nat.pos_of_ne_zero later)]
      have within : (start + 1) % row.cap < row.cap := Nat.mod_lt _ (Nat.zero_lt_of_lt inside)
      have stopsThere : Stops passes row (((start + 1) % row.cap + (d - 1)) % row.cap) := by
        rw [shift, last]
        exact stops
      obtain ⟨e, before, ends, stopped, walked⟩ := induction within stopsThere (by omega)
      refine ⟨e + 1, by omega, ?_, ?_, ?_⟩
      · rw [ends, shift]
      · rw [← shift]
        exact stopped
      · intro k below
        rcases k with _ | k
        · exact ⟨key, by rw [here, slot], Bool.eq_false_iff.mpr found⟩
        · rw [← shift]
          exact walked k (by omega)

theorem around {cap i : Nat} (start : Nat) (inside : i < cap) :
    ∃ d < cap, (start % cap + d) % cap = i := by
  have wrapped := Nat.mod_lt start (Nat.zero_lt_of_lt inside)
  refine ⟨(i + (cap - start % cap)) % cap, Nat.mod_lt _ (Nat.zero_lt_of_lt inside), ?_⟩
  rw [Nat.add_mod_mod]
  have sum : start % cap + (i + (cap - start % cap)) = i + cap := by omega
  rw [sum, Nat.add_mod_right, Nat.mod_eq_of_lt inside]

variable (passes) in
/-- With room in the row a search ends on its way, and not at an empty slot if a key further
on could have ended it. -/
theorem probe_ends (wraps : ∀ n, wrap n = n % row.cap) (room : row.taken < row.cap)
    (start : Nat) :
    ∃ i < row.cap, probe passes wrap row row.cap (wrap start) = some i ∧ Stops passes row i ∧
      row.OnWay start i ∧ ∀ j, row.OnWay start j → Stops passes row j → row.slot j ≠ none →
        row.slot i ≠ none := by
  have positive : 0 < row.cap := Nat.zero_lt_of_lt room
  have modulo : ∀ k, (start % row.cap + k) % row.cap = (start + k) % row.cap := fun k =>
    Nat.mod_add_mod start row.cap k
  have inside := Nat.mod_lt start positive
  obtain ⟨free, freeInside, empty⟩ := empty_slot room
  obtain ⟨d, near, reached⟩ := around start freeInside
  have stops : Stops passes row ((start % row.cap + d) % row.cap) := by
    intro key held
    rw [reached, empty] at held
    cases held
  obtain ⟨e, before, ends, stopped, walked⟩ := probe_first wraps inside stops near
  rw [modulo] at ends stopped
  refine ⟨(start + e) % row.cap, Nat.mod_lt _ positive, ?_, stopped, ?_, ?_⟩
  · rw [wraps, ends]
  · refine ⟨e, by omega, rfl, ?_⟩
    intro k below
    obtain ⟨key, held, _⟩ := walked k below
    rw [modulo] at held
    rw [held]
    rfl
  · rintro j ⟨d', _, place, taken⟩ stopsThere held
    rcases Nat.lt_trichotomy e d' with earlier | same | later
    · exact Option.isSome_iff_ne_none.mp (taken e earlier)
    · rw [same, ← place]
      exact held
    · -- the search would have stopped there
      obtain ⟨key, found, fails⟩ := walked d' later
      rw [modulo, ← place] at found
      rw [stopsThere key found] at fails
      cases fails

end Probe

/-- The search for a key finds it, or an empty slot on its way if the row does not hold it. -/
theorem probe_key {hash : α → Nat} {wrap : Nat → Nat} {passes : α → Bool} {row : Row α} {key : α}
    (wraps : ∀ n, wrap n = n % row.cap) (room : row.taken < row.cap) (sound : row.Sound hash)
    (tests : ∀ old, row.Holds old → (passes old = true ↔ old = key)) :
    ∃ i < row.cap, probe passes wrap row row.cap (wrap (hash key)) = some i ∧
      row.OnWay (hash key) i ∧
      (row.slot i = some key ∧ row.Holds key ∨ row.slot i = none ∧ ¬row.Holds key) := by
  obtain ⟨i, inside, ends, stops, onWay, first⟩ := probe_ends passes wraps room (hash key)
  refine ⟨i, inside, ends, onWay, ?_⟩
  rcases slot : row.slot i with _ | old
  · apply Or.inr
    refine ⟨rfl, ?_⟩
    rintro ⟨j, jInside, held⟩
    refine first j (sound j jInside key held) ?_ ?_ slot
    · intro other same
      rw [held] at same
      cases same
      exact (tests key ⟨j, jInside, held⟩).mpr rfl
    · rw [held]
      exact Option.some_ne_none key
  · apply Or.inl
    have same := (tests old ⟨i, inside, slot⟩).mp (stops old slot)
    rw [same] at slot
    exact ⟨by rw [same], i, inside, slot⟩

/-! ## Putting a key -/

section Put

variable {hash : α → Nat} {row : Row α} {i : Nat} {key : α}

theorem put_sound (sound : row.Sound hash) (onWay : row.OnWay (hash key) i) :
    (row.put i key).Sound hash := by
  have stays : ∀ {start j}, row.OnWay start j → (row.put i key).OnWay start j := by
    rintro start j ⟨d, near, place, taken⟩
    refine ⟨d, near, place, ?_⟩
    intro k below
    have before := taken k below
    simp only [put]
    by_cases here : (start + k) % row.cap = i
    · rw [here, Function.update_self]
      rfl
    · rw [Function.update_of_ne here]
      exact before
  intro j inside other held
  simp only [put] at held
  by_cases here : j = i
  · rw [here, Function.update_self] at held
    cases held
    rw [here]
    exact stays onWay
  · rw [Function.update_of_ne here] at held
    exact stays (sound j inside other held)

theorem put_holds (inside : i < row.cap) (empty : row.slot i = none) (other : α) :
    (row.put i key).Holds other ↔ row.Holds other ∨ other = key := by
  constructor
  · rintro ⟨j, jInside, held⟩
    simp only [put] at held
    by_cases here : j = i
    · rw [here, Function.update_self] at held
      cases held
      exact Or.inr rfl
    · rw [Function.update_of_ne here] at held
      exact Or.inl ⟨j, jInside, held⟩
  · intro either
    rcases either with ⟨j, jInside, held⟩ | same
    · have here : j ≠ i := by
        intro same
        rw [same, empty] at held
        cases held
      exact ⟨j, jInside, by simp only [put, Function.update_of_ne here, held]⟩
    · exact ⟨i, inside, by simp only [put, Function.update_self, same]⟩

theorem put_taken (inside : i < row.cap) (empty : row.slot i = none) :
    (row.put i key).taken = row.taken + 1 := by
  have counted := Table.count_update Option.isSome inside row.slot (some key)
  rw [empty] at counted
  simpa [taken, put] using counted

end Put

/-! ## Moving to another row -/

/-- The new row has come to hold the keys of a list of slots. -/
structure Moved (hash : α → Nat) (cap : Nat) (slots : List (Option α)) (row : Row α) : Prop where
  size : row.cap = cap
  sound : row.Sound hash
  count : row.taken = slots.countP Option.isSome
  holds : ∀ key, row.Holds key ↔ some key ∈ slots

theorem move_moved {hash : α → Nat} {wrap : Nat → Nat} {cap : Nat} {slots : List (Option α)}
    {row : Row α} (wraps : ∀ n, wrap n = n % cap) (moved : Moved hash cap slots row)
    (room : slots.countP Option.isSome < cap) (slot : Option α) :
    ∃ row', move hash wrap row slot = some row' ∧ Moved hash cap (slots ++ [slot]) row' := by
  rcases slot with _ | key
  · refine ⟨row, rfl, moved.size, moved.sound, ?_, ?_⟩
    · rw [moved.count, List.countP_append]
      rfl
    · intro key
      rw [moved.holds key, List.mem_append, List.mem_singleton]
      simp
  · have fits : row.taken < row.cap := by
      rw [moved.count, moved.size]
      exact room
    rw [← moved.size] at wraps
    obtain ⟨i, inside, ends, stops, onWay, _⟩ :=
      probe_ends (fun _ => false) wraps fits (hash key)
    have empty : row.slot i = none := by
      rcases slot : row.slot i with _ | old
      · rfl
      · cases stops old slot
    refine ⟨row.put i key, ?_, moved.size, put_sound moved.sound onWay, ?_, ?_⟩
    · rw [move, ends]
      rfl
    · rw [put_taken inside empty, moved.count, List.countP_append]
      rfl
    · intro other
      rw [put_holds inside empty, moved.holds, List.mem_append, List.mem_singleton]
      simp

/-- A larger row takes all keys of the old one, and no other. -/
theorem rehash_moved (hash : α → Nat) {wrap : Nat → Nat} {old : Row α} {cap : Nat}
    (wraps : ∀ n, wrap n = n % cap) (room : old.taken < cap) :
    ∃ row, rehash hash wrap old cap = some row ∧ row.cap = cap ∧ row.Sound hash ∧
      row.taken = old.taken ∧ ∀ key, row.Holds key ↔ old.Holds key := by
  have counted : ((List.range old.cap).map old.slot).countP Option.isSome = old.taken := by
    rw [List.countP_map]
    rfl
  have steps : ∀ n ≤ old.cap, ∃ row,
      (List.range n).foldlM (fun row i => move hash wrap row (old.slot i)) (blank cap) = some row ∧
        Moved hash cap ((List.range n).map old.slot) row := by
    intro n
    induction n with
    | zero =>
        intro _
        refine ⟨blank cap, rfl, rfl, blank_sound hash cap, blank_taken cap, ?_⟩
        intro key
        simp [blank_holds]
    | succ n induction =>
        intro below
        obtain ⟨row, folded, moved⟩ := induction (by omega)
        have fewer : ((List.range n).map old.slot).countP Option.isSome < cap := by
          refine Nat.lt_of_le_of_lt ?_ room
          rw [← counted]
          apply List.Sublist.countP_le
          apply List.Sublist.map
          exact List.range_sublist.mpr (by omega)
        obtain ⟨row', step, moved'⟩ := move_moved wraps moved fewer (old.slot n)
        refine ⟨row', ?_, ?_⟩
        · rw [List.range_succ, List.foldlM_append, folded]
          simp [step]
        · rw [List.range_succ, List.map_append]
          exact moved'
  obtain ⟨row, folded, moved⟩ := steps old.cap (Nat.le_refl _)
  refine ⟨row, folded, moved.size, moved.sound, ?_, ?_⟩
  · rw [moved.count, counted]
  · intro key
    rw [moved.holds, List.mem_map]
    simp [Holds]

end Row

end GridcoreRunner.OpenAddressing
