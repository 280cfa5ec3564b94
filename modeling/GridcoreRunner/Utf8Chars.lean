import GridcoreRunner.Utf8
import Mathlib.Tactic.IntervalCases

/-!
# The characters the machine reads

What the machine takes from one stand on the ground to the next is the encoding of one
scalar value, and the encoding of every scalar value is such a sequence. A text is well
formed when it is the encoding of a list of characters.
-/

namespace GridcoreRunner.Utf8

set_option autoImplicit false

/-- The bytes from one stand on the ground to the next. -/
inductive Sequence : List UInt8 → Prop
  | ascii (c : UInt8) (small : c < 0x80) : Sequence [c]
  | wide (c : UInt8) (s : List UInt8) (more : Nat) (low up : UInt8)
      (owes : lead c = some (.owes more low up)) (length : s.length = more + 1)
      (ran : run (.owes more low up) s = some .ground) : Sequence (c :: s)

/-! ## Bytes as numbers -/

theorem byte_eq {n : Nat} {b : UInt8} (value : b.toNat = n) : UInt8.ofNat n = b := by
  rw [← value, UInt8.ofNat_toNat]

theorem byte_value {n : Nat} (small : n < 256) : (UInt8.ofNat n).toNat = n :=
  UInt8.toNat_ofNat_of_lt small

theorem lead_two {c : UInt8} (above : 0xC2 ≤ c.toNat) (below : c.toNat < 0xE0) :
    lead c = some (.owes 0 0x80 0xBF) := by
  simp only [lead, UInt8.lt_iff_toNat_lt, ← UInt8.toNat_inj, UInt8.reduceToNat]
  grind

theorem lead_three {c : UInt8} (above : 0xE0 ≤ c.toNat) (below : c.toNat < 0xF0) :
    lead c = some (.owes 1 (if c.toNat = 0xE0 then 0xA0 else 0x80)
      (if c.toNat = 0xED then 0x9F else 0xBF)) := by
  simp only [lead, UInt8.lt_iff_toNat_lt, ← UInt8.toNat_inj, UInt8.reduceToNat]
  grind

theorem lead_four {c : UInt8} (above : 0xF0 ≤ c.toNat) (below : c.toNat ≤ 0xF4) :
    lead c = some (.owes 2 (if c.toNat = 0xF0 then 0x90 else 0x80)
      (if c.toNat = 0xF4 then 0x8F else 0xBF)) := by
  simp only [lead, UInt8.lt_iff_toNat_lt, ← UInt8.toNat_inj, UInt8.reduceToNat]
  grind

/-- What a first byte can be that something follows. -/
theorem lead_owes {c : UInt8} {more : Nat} {low up : UInt8}
    (owes : lead c = some (.owes more low up)) :
    (more = 0 ∧ 0xC2 ≤ c.toNat ∧ c.toNat < 0xE0 ∧ low = 0x80 ∧ up = 0xBF) ∨
      (more = 1 ∧ 0xE0 ≤ c.toNat ∧ c.toNat < 0xF0 ∧
        low = (if c.toNat = 0xE0 then 0xA0 else 0x80) ∧
        up = (if c.toNat = 0xED then 0x9F else 0xBF)) ∨
      more = 2 ∧ 0xF0 ≤ c.toNat ∧ c.toNat ≤ 0xF4 ∧
        low = (if c.toNat = 0xF0 then 0x90 else 0x80) ∧
        up = (if c.toNat = 0xF4 then 0x8F else 0xBF) := by
  by_cases two : c.toNat < 0xE0
  · by_cases stray : c.toNat < 0xC2
    · simp only [lead, UInt8.lt_iff_toNat_lt, UInt8.reduceToNat] at owes
      grind
    · rw [lead_two (by omega) two] at owes
      cases owes
      exact Or.inl ⟨rfl, by omega, two, rfl, rfl⟩
  · by_cases three : c.toNat < 0xF0
    · rw [lead_three (by omega) three] at owes
      cases owes
      exact Or.inr (Or.inl ⟨rfl, by omega, three, rfl, rfl⟩)
    · by_cases four : c.toNat ≤ 0xF4
      · rw [lead_four (by omega) four] at owes
        cases owes
        exact Or.inr (Or.inr ⟨rfl, by omega, four, rfl, rfl⟩)
      · simp only [lead, UInt8.lt_iff_toNat_lt, ← UInt8.toNat_inj, UInt8.reduceToNat] at owes
        grind

/-! ## Characters -/

theorem char_range (ch : Char) :
    ch.val.toNat < 0xD800 ∨ 0xDFFF < ch.val.toNat ∧ ch.val.toNat < 0x110000 := ch.valid

/-- The character of a scalar value. -/
theorem char_of {v : Nat} (scalar : v < 0xD800 ∨ 0xDFFF < v ∧ v < 0x110000) :
    ∃ ch : Char, ch.val.toNat = v := by
  have small : v < 2 ^ 32 := by omega
  have value : (UInt32.ofNat v).toNat = v := UInt32.toNat_ofNat_of_lt small
  refine ⟨⟨UInt32.ofNat v, ?_⟩, value⟩
  change (UInt32.ofNat v).toNat.isValidChar
  rw [value]
  exact scalar

/-- Every scalar value is written as one sequence. -/
theorem char_sequence (ch : Char) : Sequence (String.utf8EncodeChar ch) := by
  have range := char_range ch
  unfold String.utf8EncodeChar
  dsimp only
  set v := ch.val.toNat
  by_cases one : v ≤ 0x7f
  · rw [if_pos one]
    apply Sequence.ascii
    rw [UInt8.lt_iff_toNat_lt, byte_value (by omega)]
    simp only [UInt8.reduceToNat]
    omega
  rw [if_neg one]
  have continues : ∀ n, (UInt8.ofNat (n % 0x40 + 0x80)).toNat = n % 0x40 + 0x80 :=
    fun n => byte_value (by omega)
  by_cases two : v ≤ 0x7ff
  · rw [if_pos two]
    have first : (UInt8.ofNat (v / 64 % 0x20 + 0xc0)).toNat = v / 64 % 0x20 + 0xc0 :=
      byte_value (by omega)
    refine Sequence.wide _ _ 0 _ _ (lead_two (by omega) (by omega)) rfl ?_
    rw [run_owes_zero]
    refine ⟨?_, rfl⟩
    rw [UInt8.le_iff_toNat_le, UInt8.le_iff_toNat_le, continues]
    simp only [UInt8.reduceToNat]
    omega
  rw [if_neg two]
  by_cases three : v ≤ 0xffff
  · rw [if_pos three]
    have first : (UInt8.ofNat (v / 4096 % 0x10 + 0xe0)).toNat = v / 4096 % 0x10 + 0xe0 :=
      byte_value (by omega)
    refine Sequence.wide _ _ 1 _ _ (lead_three (by omega) (by omega)) rfl ?_
    rw [run_owes_succ, run_owes_zero]
    refine ⟨?_, ?_, rfl⟩
    · rw [UInt8.le_iff_toNat_le, UInt8.le_iff_toNat_le, continues, first]
      constructor
      · split_ifs <;> simp only [UInt8.reduceToNat] <;> omega
      · split_ifs <;> simp only [UInt8.reduceToNat] <;> omega
    · rw [UInt8.le_iff_toNat_le, UInt8.le_iff_toNat_le, continues]
      simp only [UInt8.reduceToNat]
      omega
  · rw [if_neg three]
    have first : (UInt8.ofNat (v / 262144 % 0x08 + 0xf0)).toNat = v / 262144 % 0x08 + 0xf0 :=
      byte_value (by omega)
    refine Sequence.wide _ _ 2 _ _ (lead_four (by omega) (by omega)) rfl ?_
    rw [run_owes_succ, run_owes_succ, run_owes_zero]
    refine ⟨?_, ?_, ?_, rfl⟩
    · rw [UInt8.le_iff_toNat_le, UInt8.le_iff_toNat_le, continues, first]
      constructor
      · split_ifs <;> simp only [UInt8.reduceToNat] <;> omega
      · split_ifs <;> simp only [UInt8.reduceToNat] <;> omega
    · rw [UInt8.le_iff_toNat_le, UInt8.le_iff_toNat_le, continues]
      simp only [UInt8.reduceToNat]
      omega
    · rw [UInt8.le_iff_toNat_le, UInt8.le_iff_toNat_le, continues]
      simp only [UInt8.reduceToNat]
      omega

/-- Every sequence spells a scalar value. -/
theorem sequence_char {u : List UInt8} (whole : Sequence u) :
    ∃ ch : Char, String.utf8EncodeChar ch = u := by
  cases whole with
  | ascii c small =>
      rw [UInt8.lt_iff_toNat_lt] at small
      simp only [UInt8.reduceToNat] at small
      obtain ⟨ch, value⟩ := char_of (v := c.toNat) (by omega)
      refine ⟨ch, ?_⟩
      unfold String.utf8EncodeChar
      dsimp only
      rw [value, if_pos (by omega), UInt8.ofNat_toNat]
  | wide c s more low up owes length ran =>
      rcases lead_owes owes with ⟨rfl, above, below, rfl, rfl⟩ | ⟨rfl, above, below, rfl, rfl⟩ |
        ⟨rfl, above, below, rfl, rfl⟩
      · rcases s with _ | ⟨b, _ | ⟨d, s⟩⟩
        · cases length
        · rw [run_owes_zero, UInt8.le_iff_toNat_le, UInt8.le_iff_toNat_le] at ran
          simp only [UInt8.reduceToNat] at ran
          obtain ⟨ch, value⟩ := char_of
            (v := (c.toNat - 0xC0) * 64 + (b.toNat - 0x80)) (by omega)
          refine ⟨ch, ?_⟩
          unfold String.utf8EncodeChar
          dsimp only
          rw [value, if_neg (by omega), if_pos (by omega), byte_eq (b := c) (by omega),
            byte_eq (b := b) (by omega)]
        · simp only [List.length_cons] at length
          omega
      · rcases s with _ | ⟨b, _ | ⟨d, _ | ⟨e, s⟩⟩⟩
        · cases length
        · simp only [List.length_cons, List.length_nil] at length
          omega
        · rw [run_owes_succ, run_owes_zero] at ran
          simp only [UInt8.le_iff_toNat_le, apply_ite UInt8.toNat, UInt8.reduceToNat] at ran
          obtain ⟨ch, value⟩ := char_of
            (v := (c.toNat - 0xE0) * 4096 + (b.toNat - 0x80) * 64 + (d.toNat - 0x80)) (by grind)
          refine ⟨ch, ?_⟩
          have second : 0x80 ≤ b.toNat ∧ b.toNat ≤ 0xBF ∧ (c.toNat = 0xE0 → 0xA0 ≤ b.toNat) := by
            grind
          unfold String.utf8EncodeChar
          dsimp only
          rw [value, if_neg (by omega), if_neg (by omega), if_pos (by omega),
            byte_eq (b := c) (by omega), byte_eq (b := b) (by omega), byte_eq (b := d) (by omega)]
        · simp only [List.length_cons] at length
          omega
      · rcases s with _ | ⟨b, _ | ⟨d, _ | ⟨e, _ | ⟨g, s⟩⟩⟩⟩
        · cases length
        · simp only [List.length_cons, List.length_nil] at length
          omega
        · simp only [List.length_cons, List.length_nil] at length
          omega
        · rw [run_owes_succ, run_owes_succ, run_owes_zero] at ran
          simp only [UInt8.le_iff_toNat_le, apply_ite UInt8.toNat, UInt8.reduceToNat] at ran
          obtain ⟨ch, value⟩ := char_of
            (v := (c.toNat - 0xF0) * 262144 + (b.toNat - 0x80) * 4096 + (d.toNat - 0x80) * 64 +
              (e.toNat - 0x80)) (by grind)
          refine ⟨ch, ?_⟩
          have second : 0x80 ≤ b.toNat ∧ b.toNat ≤ 0xBF ∧ (c.toNat = 0xF0 → 0x90 ≤ b.toNat) := by
            grind
          unfold String.utf8EncodeChar
          dsimp only
          rw [value, if_neg (by omega), if_neg (by omega), if_neg (by omega),
            byte_eq (b := c) (by omega), byte_eq (b := b) (by omega), byte_eq (b := d) (by omega),
            byte_eq (b := e) (by omega)]
        · simp only [List.length_cons] at length
          omega

/-! ## Texts -/

theorem sequence_run {u : List UInt8} (whole : Sequence u) : run .ground u = some .ground := by
  cases whole with
  | ascii c small =>
      change (step .ground c).bind (fun next => run next []) = some .ground
      rw [step_ascii small]
      rfl
  | wide c s more low up owes length ran =>
      change (lead c).bind (fun next => run next s) = some .ground
      rw [owes]
      exact ran

theorem well_formed_sequence {u : List UInt8} (whole : Sequence u) (s : List UInt8) :
    wellFormed (u ++ s) = wellFormed s := by
  unfold wellFormed
  rw [run_append, sequence_run whole]
  rfl

theorem well_formed_run (text : List UInt8) :
    wellFormed text = true ↔ run .ground text = some .ground := beq_iff_eq

/-- A text that is not empty begins with a sequence if it is well formed. -/
theorem well_formed_front {c : UInt8} {s : List UInt8} (fine : wellFormed (c :: s) = true) :
    ∃ u rest, Sequence u ∧ c :: s = u ++ rest ∧ wellFormed rest = true ∧ u ≠ [] := by
  have ran := (well_formed_run _).mp fine
  have steps : run .ground (c :: s) = (lead c).bind fun next => run next s := rfl
  by_cases small : c < 0x80
  · refine ⟨[c], s, .ascii c small, rfl, ?_, List.cons_ne_nil c []⟩
    rw [← well_formed_sequence (.ascii c small) s]
    exact fine
  · rw [steps] at ran
    cases owes : lead c with
    | none =>
        rw [owes] at ran
        cases ran
    | some state =>
        rw [owes] at ran
        cases state with
        | ground =>
            unfold lead at owes
            rw [if_neg small] at owes
            split_ifs at owes <;> cases owes
        | owes more low up =>
            have parts := run_owes_split ran
            have above : 0x80 ≤ low := by
              rcases lead_owes owes with ⟨-, -, -, rfl, -⟩ | ⟨-, -, -, rfl, -⟩ | ⟨-, -, -, rfl, -⟩
              · decide
              · split_ifs <;> decide
              · split_ifs <;> decide
            have length : (s.take (more + 1)).length = more + 1 := by
              rw [List.length_take]
              have room := (run_owes_take above parts.1).1
              omega
            refine ⟨c :: s.take (more + 1), s.drop (more + 1),
              .wide c _ more low up owes length parts.1, ?_, ?_, List.cons_ne_nil _ _⟩
            · rw [List.cons_append, List.take_append_drop]
            · exact (well_formed_run _).mpr parts.2

/-- A text is well formed when it is written from characters. -/
theorem well_formed_chars (text : List UInt8) :
    wellFormed text = true ↔ ∃ chars : List Char, text = chars.flatMap String.utf8EncodeChar := by
  constructor
  · intro fine
    have all : ∀ n, ∀ text : List UInt8, text.length ≤ n → wellFormed text = true →
        ∃ chars : List Char, text = chars.flatMap String.utf8EncodeChar := by
      intro n
      induction n with
      | zero =>
          intro text short _
          exact ⟨[], List.length_eq_zero_iff.mp (by omega)⟩
      | succ n induction =>
          intro text short fine
          cases text with
          | nil => exact ⟨[], rfl⟩
          | cons c s =>
              obtain ⟨u, rest, whole, split, later, nonempty⟩ := well_formed_front fine
              have shorter : rest.length ≤ n := by
                have size := congrArg List.length split
                have positive := List.length_pos_iff.mpr nonempty
                rw [List.length_append] at size
                omega
              obtain ⟨ch, spelled⟩ := sequence_char whole
              obtain ⟨chars, same⟩ := induction rest shorter later
              exact ⟨ch :: chars, by rw [List.flatMap_cons, spelled, ← same, split]⟩
    exact all text.length text (Nat.le_refl _) fine
  · rintro ⟨chars, same⟩
    rw [same]
    clear same
    induction chars with
    | nil => rfl
    | cons ch chars induction =>
        rw [List.flatMap_cons, well_formed_sequence (char_sequence ch)]
        exact induction

end GridcoreRunner.Utf8
