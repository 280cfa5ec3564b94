import GridcoreRunner.Json.Decoded
import GridcoreRunner.OpenAddressing

/-!
# The names of one object

The hash set in which `parse_container` looks up a member's name: open addressing in a row
of a power of two slots, doubled before it is more than half full. It answers as a list of
the names would.
-/

namespace GridcoreRunner.Json

set_option autoImplicit false

open GridcoreRunner.OpenAddressing

def keyHash (s : Bytes) : UInt64 :=
  (cString s).foldl (fun h c => (h ^^^ c.toUInt64) * 1099511628211) 1469598103934665603

structure Keyset where
  row : Row Bytes
  used : Nat

def Keyset.empty : Keyset := { row := Row.blank 0, used := 0 }

/-- `& (cap - 1)` -/
def mask (cap i : Nat) : Nat := i &&& (cap - 1)

/-- The table before a name is looked up: a larger one if it would become too full. -/
def grow (set : Keyset) : Option Keyset :=
  if set.used + 1 > set.row.cap / 2 then
    let cap := if set.row.cap ≠ 0 then set.row.cap * 2 else 16
    (set.row.rehash (fun key => (keyHash key).toNat) (mask cap) cap).map fun row =>
      { set with row := row }
  else some set

/-- `keyset_insert`: whether the name is new, and the table after it. There is no answer if
one of the loops never ends. Memory never runs out. -/
def keysetInsert (set : Keyset) (key : Bytes) : Option (Bool × Keyset) :=
  (grow set).bind fun set =>
    (Row.probe (fun old => cString old == cString key) (mask set.row.cap) set.row set.row.cap
      (mask set.row.cap (keyHash key).toNat)).map fun i =>
        match set.row.slot i with
        | some _ => (false, set)
        | none => (true, { row := set.row.put i key, used := set.used + 1 })

/-- The table holds the names read so far. -/
structure Keyset.Lists (set : Keyset) (keys : List Bytes) : Prop where
  power : set.row.cap = 0 ∨ ∃ k, set.row.cap = 2 ^ (k + 4)
  sound : set.row.Sound fun key => (keyHash key).toNat
  count : set.row.taken = set.used
  room : set.used ≤ set.row.cap / 2
  holds : ∀ key, set.row.Holds key ↔ key ∈ keys

theorem mask_power (k i : Nat) : mask (2 ^ k) i = i % 2 ^ k := Nat.and_two_pow_sub_one_eq_mod i k

theorem keyset_empty_lists : Keyset.Lists Keyset.empty [] where
  power := Or.inl rfl
  sound := Row.blank_sound _ 0
  count := Row.blank_taken 0
  room := Nat.le_refl 0
  holds := fun key => by simp [Keyset.empty, Row.blank_holds]

/-- A grown table holds the same names and has room for one more. -/
theorem grow_lists {set : Keyset} {keys : List Bytes} (lists : set.Lists keys) :
    ∃ grown, grow set = some grown ∧ grown.Lists keys ∧ grown.used + 1 ≤ grown.row.cap / 2 ∧
      ∃ k, grown.row.cap = 2 ^ (k + 4) := by
  unfold grow
  by_cases full : set.used + 1 > set.row.cap / 2
  · rw [if_pos full]
    have room := lists.room
    obtain ⟨k, larger⟩ : ∃ k, (if set.row.cap ≠ 0 then set.row.cap * 2 else 16) = 2 ^ (k + 4) := by
      rcases lists.power with none' | ⟨k, size⟩
      · exact ⟨0, by rw [none']; rfl⟩
      · refine ⟨k + 1, ?_⟩
        rw [if_pos (by rw [size]; positivity), size]
        ring
    have enough : set.used + 1 ≤ 2 ^ (k + 4) / 2 := by
      rw [← larger]
      split_ifs with some' <;> omega
    dsimp only
    rw [larger]
    have fits : set.row.taken < 2 ^ (k + 4) := by
      rw [lists.count]
      omega
    obtain ⟨row, moved, size, sound, count, holds⟩ :=
      Row.rehash_moved (fun key => (keyHash key).toNat) (mask_power (k + 4)) fits
    refine ⟨{ set with row := row }, by rw [moved]; rfl, ?_, ?_, k, size⟩
    · refine ⟨Or.inr ⟨k, size⟩, sound, count.trans lists.count, ?_, ?_⟩
      · dsimp only
        rw [size]
        omega
      · intro key
        rw [holds key, lists.holds key]
    · dsimp only
      rw [size]
      exact enough
  · rw [if_neg full]
    refine ⟨set, rfl, lists, Nat.not_lt.mp full, ?_⟩
    rcases lists.power with none' | power
    · rw [none'] at full
      omega
    · exact power

/-- `keyset_insert` answers whether the name is new, and then holds it too. -/
theorem keyset_insert_lists {set : Keyset} {keys : List Bytes} {key : Bytes}
    (lists : set.Lists keys) (free : NulFree key) (frees : ∀ old ∈ keys, NulFree old) :
    ∃ after, keysetInsert set key = some (decide (key ∉ keys), after) ∧
      (key ∉ keys → after.Lists (keys ++ [key])) := by
  obtain ⟨grown, grew, lists, enough, k, size⟩ := grow_lists lists
  have wraps : ∀ n, mask grown.row.cap n = n % grown.row.cap := by
    rw [size]
    exact mask_power (k + 4)
  have room : grown.row.taken < grown.row.cap := by
    rw [lists.count]
    omega
  have tests : ∀ old, grown.row.Holds old →
      ((fun old => cString old == cString key) old = true ↔ old = key) := by
    intro old held
    dsimp only
    rw [c_string_whole free, c_string_whole (frees old ((lists.holds old).mp held)), beq_iff_eq]
  obtain ⟨i, inside, ends, onWay, found⟩ := Row.probe_key wraps room lists.sound tests
  have inserted : keysetInsert set key = some (match grown.row.slot i with
      | some _ => (false, grown)
      | none => (true, { row := grown.row.put i key, used := grown.used + 1 })) := by
    rw [keysetInsert, grew]
    dsimp only [Option.bind_some]
    rw [ends]
    rfl
  rcases found with ⟨slot, held⟩ | ⟨empty, fresh⟩
  · have seen := (lists.holds key).mp held
    refine ⟨grown, ?_, fun new => absurd seen new⟩
    rw [inserted, slot, decide_eq_false (not_not_intro seen)]
  · have new : key ∉ keys := fun seen => fresh ((lists.holds key).mpr seen)
    refine ⟨{ row := grown.row.put i key, used := grown.used + 1 }, ?_, fun _ => ?_⟩
    · rw [inserted, empty, decide_eq_true new]
    · refine ⟨Or.inr ⟨k, size⟩, Row.put_sound lists.sound onWay, ?_, enough, ?_⟩
      · rw [Row.put_taken inside empty, lists.count]
      · intro other
        rw [Row.put_holds inside empty, lists.holds other, List.mem_append, List.mem_singleton]

end GridcoreRunner.Json
