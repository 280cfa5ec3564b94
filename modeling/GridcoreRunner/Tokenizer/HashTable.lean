import GridcoreRunner.Json.Keyset
import GridcoreRunner.Tokenizer.Vocabulary

/-!
# The hash table of the vocabulary

`hmap`: the strings of a table, the tokens or the merges, are put into a row of slots one after
the other, each under its place, and of equal ones the first is kept. A look-up walks from the
slot its hash names. It answers as a search of the table does.
-/

namespace GridcoreRunner.Tok

set_option autoImplicit false

open OpenAddressing
open Json (mask mask_power)

def fnv1a (s : Bytes) : UInt64 :=
  s.foldl (fun h c => (h ^^^ c.toUInt64) * 0x100000001b3) 0xcbf29ce484222325

/-- `hmap_ent`. -/
structure HmapEnt where
  key : Bytes
  klen : UInt32
  val : Nat

def HmapEnt.of (k : Bytes) (v : Nat) : HmapEnt := ⟨k, UInt32.ofNat k.length, v⟩

/-- The lengths are compared, and as many bytes. -/
def HmapEnt.equals (e : HmapEnt) (k : Bytes) : Bool :=
  e.klen.toNat == k.length && e.key.take k.length == k

/-- `hmap`. -/
abbrev Hmap := Row HmapEnt

/-- The doubling of `hmap_init`. From 16 on it ends within 60 rounds: the capacity is then past
`SIZE_MAX / 2`. -/
def hmapCap (expect : Nat) : Nat → Nat → Nat
  | 0, cap => cap
  | rounds + 1, cap =>
      if cap < expect * 2 % 2 ^ 64 ∧ cap ≤ (2 ^ 64 - 1) / 2 then hmapCap expect rounds (cap * 2)
      else cap

def hmapInit (expect : Nat) : Hmap := Row.blank (hmapCap expect 60 16)

namespace Hmap

/-- Where the loop of `hmap_put` and of `hmap_get` ends; there is no answer if it never does. -/
def walk (m : Hmap) (k : Bytes) : Option Nat :=
  Row.probe (fun e => e.equals k) (mask m.cap) m m.cap (mask m.cap (fnv1a k).toNat)

/-- `hmap_put`. -/
def put (m : Hmap) (k : Bytes) (v : Nat) : Option Hmap :=
  (m.walk k).map fun i =>
    match m.slot i with
    | some _ => m
    | none => Row.put m i (HmapEnt.of k v)

/-- `hmap_get`. -/
def get (m : Hmap) (k : Bytes) : Option (Option Nat) :=
  (m.walk k).map fun i => (m.slot i).map HmapEnt.val

/-- How `tokenizer_init` fills a table. -/
def fill (table : List Bytes) : Option Hmap :=
  (List.range table.length).foldlM (fun m i => put m (table.getD i []) i)
    (hmapInit table.length)

end Hmap

theorem equals_of {k : Bytes} (short : k.length < 2 ^ 32) (v : Nat) (other : Bytes) :
    (HmapEnt.of k v).equals other = true ↔ k = other := by
  have length : (UInt32.ofNat k.length).toNat = k.length := UInt32.toNat_ofNat_of_lt' short
  unfold HmapEnt.equals HmapEnt.of
  dsimp only
  rw [length, Bool.and_eq_true, beq_iff_eq, beq_iff_eq]
  constructor
  · intro same
    rw [← same.1, List.take_length] at same
    exact same.2
  · intro same
    rw [same]
    exact ⟨rfl, List.take_length⟩

/-- One string more is found at the end, if it was not found before. -/
theorem hmap_get_snoc (seen : List Bytes) (k key : Bytes) (v : Nat) :
    hmapGet (seen ++ [k]) key = some v ↔
      hmapGet seen key = some v ∨ hmapGet seen key = none ∧ k = key ∧ v = seen.length := by
  unfold hmapGet
  rw [List.findIdx?_append]
  cases found : seen.findIdx? (· == key) with
  | some i => simp
  | none =>
      by_cases same : k = key
      · simp [same, eq_comm]
      · simp [same]

/-- A string that was found before changes no answer. -/
theorem hmap_get_known {seen : List Bytes} {k : Bytes} {v : Nat} (known : hmapGet seen k = some v)
    (key : Bytes) (w : Nat) : hmapGet (seen ++ [k]) key = some w ↔ hmapGet seen key = some w := by
  rw [hmap_get_snoc]
  constructor
  · intro either
    cases either with
    | inl found => exact found
    | inr new =>
        rw [← new.2.1, known] at new
        cases new.1
  · exact .inl

/-- The row holds every string that was seen, under its first place. -/
structure Hmap.Lists (m : Hmap) (seen : List Bytes) : Prop where
  power : ∃ k, m.cap = 2 ^ (k + 4)
  sound : m.Sound fun e => (fnv1a e.key).toNat
  short : ∀ key ∈ seen, key.length < 2 ^ 32
  count : m.taken ≤ seen.length
  holds : ∀ e, m.Holds e ↔ ∃ key v, e = HmapEnt.of key v ∧ hmapGet seen key = some v

namespace Hmap.Lists

variable {m : Hmap} {seen : List Bytes}

theorem key_found (lists : m.Lists seen) {key : Bytes} {v : Nat}
    (found : hmapGet seen key = some v) {e : HmapEnt} (held : m.Holds e) :
    e.equals key = true ↔ e = HmapEnt.of key v := by
  obtain ⟨other, w, same, at'⟩ := (lists.holds e).mp held
  have member := List.mem_of_getElem? (hmap_get_key at')
  rw [same, equals_of (lists.short other member)]
  constructor
  · intro equal
    rw [equal, found] at at'
    cases at'
    rw [equal]
  · intro equal
    have keys := congrArg HmapEnt.key equal
    exact keys

theorem key_missing (lists : m.Lists seen) {key : Bytes} (missing : hmapGet seen key = none)
    {e : HmapEnt} (held : m.Holds e) : e.equals key = false := by
  obtain ⟨other, w, same, at'⟩ := (lists.holds e).mp held
  have member := List.mem_of_getElem? (hmap_get_key at')
  rw [same]
  apply Bool.eq_false_iff.mpr
  intro equal
  rw [(equals_of (lists.short other member) w key).mp equal, missing] at at'
  cases at'

/-- The walk ends at the entry of the key, or at an empty slot if there is none. -/
theorem walk_ends (lists : m.Lists seen) (room : m.taken < m.cap) (key : Bytes) :
    ∃ i < m.cap, m.walk key = some i ∧ m.OnWay (fnv1a key).toNat i ∧
      m.slot i = (hmapGet seen key).map (HmapEnt.of key) := by
  obtain ⟨k, size⟩ := lists.power
  have wraps : ∀ n, mask m.cap n = n % m.cap := by
    rw [size]
    exact mask_power (k + 4)
  cases at' : hmapGet seen key with
  | some v =>
      have tests : ∀ old, m.Holds old → (old.equals key = true ↔ old = HmapEnt.of key v) :=
        fun _ held => lists.key_found at' held
      obtain ⟨i, inside, ends, onWay, found⟩ := Row.probe_key wraps room lists.sound tests
      refine ⟨i, inside, ends, onWay, ?_⟩
      cases found with
      | inl here => exact here.1
      | inr empty => exact absurd ((lists.holds _).mpr ⟨key, v, rfl, at'⟩) empty.2
  | none =>
      have fresh : ¬ m.Holds (HmapEnt.of key 0) := by
        intro held
        obtain ⟨other, w, same, found⟩ := (lists.holds _).mp held
        have keys := congrArg HmapEnt.key same
        have keys : key = other := keys
        rw [← keys, at'] at found
        cases found
      have tests : ∀ old, m.Holds old → (old.equals key = true ↔ old = HmapEnt.of key 0) := by
        intro old held
        rw [lists.key_missing at' held]
        constructor
        · intro absurd'
          cases absurd'
        · intro same
          rw [same] at held
          exact absurd held fresh
      obtain ⟨i, inside, ends, onWay, found⟩ := Row.probe_key wraps room lists.sound tests
      refine ⟨i, inside, ends, onWay, ?_⟩
      cases found with
      | inl here => exact absurd here.2 fresh
      | inr empty => exact empty.1

theorem put_lists (lists : m.Lists seen) (room : m.taken < m.cap) {key : Bytes}
    (short : key.length < 2 ^ 32) :
    ∃ after, m.put key seen.length = some after ∧ after.cap = m.cap ∧
      Hmap.Lists after (seen ++ [key]) := by
  obtain ⟨i, inside, ends, onWay, slot⟩ := lists.walk_ends room key
  have shorts : ∀ other ∈ seen ++ [key], other.length < 2 ^ 32 := by
    intro other member
    cases List.mem_append.mp member with
    | inl before => exact lists.short other before
    | inr new =>
        rw [List.mem_singleton.mp new]
        exact short
  have length : (seen ++ [key]).length = seen.length + 1 := by
    rw [List.length_append, List.length_singleton]
  have count := lists.count
  unfold Hmap.put
  rw [ends, Option.map_some]
  cases at' : hmapGet seen key with
  | some v =>
      rw [slot, at']
      refine ⟨m, rfl, rfl, lists.power, lists.sound, shorts, by omega, ?_⟩
      intro e
      simp only [lists.holds, hmap_get_known at']
  | none =>
      rw [at'] at slot
      rw [slot]
      refine ⟨Row.put m i (HmapEnt.of key seen.length), rfl, rfl, lists.power,
        Row.put_sound lists.sound onWay, shorts, ?_, ?_⟩
      · rw [Row.put_taken inside slot]
        omega
      · intro e
        rw [Row.put_holds inside slot, lists.holds]
        constructor
        · intro either
          cases either with
          | inl before =>
              obtain ⟨other, w, same, found⟩ := before
              exact ⟨other, w, same, (hmap_get_snoc seen key other w).mpr (.inl found)⟩
          | inr new =>
              exact ⟨key, seen.length, new,
                (hmap_get_snoc seen key key _).mpr (.inr ⟨at', rfl, rfl⟩)⟩
        · intro held
          obtain ⟨other, w, same, found⟩ := held
          cases (hmap_get_snoc seen key other w).mp found with
          | inl before => exact .inl ⟨other, w, same, before⟩
          | inr new =>
              rw [← new.2.1, new.2.2] at same
              exact .inr same

end Hmap.Lists

/-- The capacity is a power of two, and twice what is expected. -/
theorem hmap_cap_large {expect : Nat} (few : expect < 2 ^ 31) (rounds k : Nat)
    (reaches : expect * 2 ≤ 2 ^ (k + 4 + rounds)) :
    ∃ j, hmapCap expect rounds (2 ^ (k + 4)) = 2 ^ (j + 4) ∧ expect * 2 ≤ 2 ^ (j + 4) := by
  induction rounds generalizing k with
  | zero => exact ⟨k, rfl, reaches⟩
  | succ rounds induction =>
      unfold hmapCap
      by_cases more : 2 ^ (k + 4) < expect * 2 % 2 ^ 64 ∧ 2 ^ (k + 4) ≤ (2 ^ 64 - 1) / 2
      · rw [if_pos more]
        have doubled : 2 ^ (k + 4) * 2 = 2 ^ (k + 1 + 4) := by ring
        rw [doubled]
        apply induction (k + 1)
        have same : k + 1 + 4 + rounds = k + 4 + (rounds + 1) := by omega
        rw [same]
        exact reaches
      · rw [if_neg more]
        refine ⟨k, rfl, ?_⟩
        rw [Nat.mod_eq_of_lt (by omega)] at more
        omega

theorem hmap_init_lists {expect : Nat} (few : expect < 2 ^ 31) :
    (hmapInit expect).Lists [] ∧ expect * 2 ≤ (hmapInit expect).cap := by
  obtain ⟨j, size, large⟩ := hmap_cap_large few 60 0 (by omega)
  refine ⟨⟨⟨j, size⟩, Row.blank_sound _ _, ?_, ?_, ?_⟩, ?_⟩
  · intro key member
    cases member
  · exact Nat.le_of_eq (Row.blank_taken _)
  · intro e
    constructor
    · intro held
      exact absurd held (Row.blank_holds _ e)
    · intro held
      obtain ⟨_, _, _, found⟩ := held
      cases found
  · exact large.trans (Nat.le_of_eq size.symm)

/-- The first `n` strings of the table are put into the row. -/
theorem filled_lists (table : List Bytes) (few : table.length < 2 ^ 31)
    (short : ∀ key ∈ table, key.length < 2 ^ 32) (n : Nat) (inside : n ≤ table.length) :
    ∃ m, (List.range n).foldlM (fun m i => Hmap.put m (table.getD i []) i)
        (hmapInit table.length) = some m ∧
      m.cap = (hmapInit table.length).cap ∧ m.Lists (table.take n) := by
  obtain ⟨start, large⟩ := hmap_init_lists few
  induction n with
  | zero => exact ⟨hmapInit table.length, rfl, rfl, start⟩
  | succ n induction =>
      obtain ⟨m, filled, size, lists⟩ := induction (by omega)
      have count := lists.count
      rw [List.length_take] at count
      have key : table.getD n [] = table[n] := by
        rw [List.getD_eq_getElem?_getD, List.getElem?_eq_getElem inside]
        rfl
      obtain ⟨after, put, same, next⟩ := lists.put_lists (by omega)
        (short table[n] (List.getElem_mem inside))
      rw [List.length_take, Nat.min_eq_left (by omega)] at put
      refine ⟨after, ?_, same.trans size, ?_⟩
      · rw [List.range_succ, List.foldlM_append, filled]
        simp only [Option.bind_eq_bind, Option.bind_some, List.foldlM_cons, List.foldlM_nil, key,
          put]
        rfl
      · rw [List.take_succ_eq_append_getElem inside]
        exact next

theorem Hmap.Lists.get_searches {m : Hmap} {seen : List Bytes} (lists : m.Lists seen)
    (room : m.taken < m.cap) (key : Bytes) : m.get key = some (hmapGet seen key) := by
  obtain ⟨i, _, ends, _, slot⟩ := lists.walk_ends room key
  unfold Hmap.get
  rw [ends, Option.map_some, slot, Option.map_map]
  congr 1
  cases hmapGet seen key with
  | none => rfl
  | some v => rfl

/-- The table is filled, every look-up ends, and what it finds is what a search of the strings
finds: the first place of the key, or nothing. -/
theorem hmap_is_the_search (table : List Bytes) (few : table.length < 2 ^ 31)
    (short : ∀ key ∈ table, key.length < 2 ^ 32) :
    ∃ m, Hmap.fill table = some m ∧ ∀ key, m.get key = some (hmapGet table key) := by
  obtain ⟨_, large⟩ := hmap_init_lists few
  obtain ⟨m, filled, size, lists⟩ := filled_lists table few short table.length (Nat.le_refl _)
  rw [List.take_length] at lists
  have count := lists.count
  obtain ⟨k, power⟩ := lists.power
  have positive : 0 < m.cap := by
    rw [power]
    positivity
  exact ⟨m, filled, lists.get_searches (by omega)⟩

theorem hmap_is_the_search_twice :
    ∃ m, Hmap.fill [[0x61], [0x62], [0x61]] = some m ∧ m.get [0x61] = some (some 0) := by
  obtain ⟨m, filled, answers⟩ :=
    hmap_is_the_search [[0x61], [0x62], [0x61]] (by decide) (by decide)
  exact ⟨m, filled, (answers [0x61]).trans (by decide)⟩

end GridcoreRunner.Tok
