import GridcoreRunner.Json.Accept

/-!
# What a string decodes to

Every escape stands for one character, written as UTF-8, and none of them is NUL. So the
decoded text of a string with well-formed bytes is again a text of characters, and a `char *`
carries it whole.
-/

namespace GridcoreRunner.Json

set_option autoImplicit false

open GridcoreRunner.Utf8

/-! ## One character -/

theorem or_low (base : Nat) {x : Nat} (low : x < 2 ^ 6) : 2 ^ 6 * base ||| x = 2 ^ 6 * base + x :=
  (Nat.two_pow_add_eq_or_of_lt low base).symm

theorem low_six (n : Nat) : n &&& 0x3F = n % 64 := Nat.and_two_pow_sub_one_eq_mod n 6

/-- `u8_emit` writes a character as it is encoded. -/
theorem u8_emit_char (ch : Char) : u8Emit ch.val.toNat = String.utf8EncodeChar ch := by
  have range := char_range ch
  have continuation : ∀ n, 0x80 ||| n &&& 0x3F = n % 0x40 + 0x80 := by
    intro n
    rw [low_six, Nat.add_comm]
    exact or_low 2 (Nat.mod_lt n (by omega))
  unfold u8Emit String.utf8EncodeChar
  dsimp only
  generalize ch.val.toNat = v at range ⊢
  rw [continuation, continuation, continuation]
  simp only [Nat.shiftRight_eq_div_pow, Nat.reducePow]
  by_cases one : v < 0x80
  · rw [if_pos one, if_pos (Nat.le_of_lt_succ one)]
  rw [if_neg one, if_neg (fun low : v ≤ 0x7f => one (Nat.lt_succ_of_le low))]
  by_cases two : v < 0x800
  · have first : 0xC0 ||| v / 64 = v / 64 % 0x20 + 0xc0 := by
      rw [Nat.mod_eq_of_lt (by omega), Nat.add_comm]
      exact or_low 3 (by omega)
    rw [if_pos two, if_pos (Nat.le_of_lt_succ two), first]
  rw [if_neg two, if_neg (fun low : v ≤ 0x7ff => two (Nat.lt_succ_of_le low))]
  by_cases three : v < 0x10000
  · have first : 0xE0 ||| v / 4096 = v / 4096 % 0x10 + 0xe0 := by
      rw [Nat.mod_eq_of_lt (by omega), Nat.add_comm]
      exact (Nat.two_pow_add_eq_or_of_lt (i := 4) (by omega) 14).symm
    rw [if_pos three, if_pos (Nat.le_of_lt_succ three), first]
  · have first : 0xF0 ||| v / 262144 = v / 262144 % 0x08 + 0xf0 := by
      rw [Nat.mod_eq_of_lt (by omega), Nat.add_comm]
      exact (Nat.two_pow_add_eq_or_of_lt (i := 4) (by omega) 15).symm
    rw [if_neg three, if_neg (fun low : v ≤ 0xffff => three (Nat.lt_succ_of_le low)), first]

theorem hex4_below {a b c d : UInt8} {cp : Nat} (reads : hex4 a b c d = some cp) :
    cp < 0x10000 := by
  simp only [hex4, Option.bind_eq_some_iff, Option.map_eq_some_iff] at reads
  obtain ⟨x, hx, y, hy, z, hz, w, hw, same⟩ := reads
  have := hex_digit_lt hx
  have := hex_digit_lt hy
  have := hex_digit_lt hz
  have := hex_digit_lt hw
  omega

theorem unescape_byte {e b : UInt8} (known : unescape e = some b) : b < 0x80 ∧ b ≠ 0 := by
  unfold unescape at known
  split_ifs at known <;> rw [← Option.some.inj known] <;> decide

theorem join_pair_range {cp lo : Nat} (high : isHigh cp = true) (low : isLow lo = true) :
    0xFFFF < joinPair cp lo ∧ joinPair cp lo < 0x110000 := by
  simp only [isHigh, isLow, Bool.and_eq_true, decide_eq_true_eq] at high low
  have shifted : (cp - 0xD800) <<< 10 = (cp - 0xD800) * 1024 := Nat.shiftLeft_eq _ 10
  unfold joinPair
  omega

/-- What an escape decodes to is a character of its own. -/
theorem escape_char {piece : Piece} (escape : piece.Escape) :
    ∃ ch : Char, piece.decode = String.utf8EncodeChar ch := by
  have scalar : ∀ cp, cp < 0xD800 ∨ 0xDFFF < cp ∧ cp < 0x110000 →
      ∃ ch : Char, u8Emit cp = String.utf8EncodeChar ch := by
    intro cp range
    obtain ⟨ch, value⟩ := char_of range
    exact ⟨ch, by rw [← value, u8_emit_char]⟩
  cases piece with
  | raw c plain => exact escape.elim
  | short e b known =>
      have small := (unescape_byte known).1
      have below : b.toNat < 128 := UInt8.lt_iff_toNat_lt.mp small
      obtain ⟨ch, same⟩ := scalar b.toNat (by omega)
      refine ⟨ch, ?_⟩
      rw [← same, u8Emit, if_pos (by omega), UInt8.ofNat_toNat]
      rfl
  | code quad single =>
      apply scalar
      have below := hex4_below quad.reads
      simp only [isHigh, isLow, Bool.and_eq_false_iff, decide_eq_false_iff_not] at single
      omega
  | pair high low halves =>
      have range := join_pair_range halves.1 halves.2
      exact scalar (joinPair high.cp low.cp) (by omega)

/-! ## Texts -/

theorem escape_run {piece : Piece} (escape : piece.Escape) {state : State} (high : state.High)
    {rest : Bytes} (ran : run state (piece.text ++ rest) = some .ground) :
    run .ground rest = some .ground ∧ state = .ground := by
  have ascii := Piece.ascii escape
  cases state with
  | ground =>
      rw [run_append, run_ascii ascii] at ran
      exact ⟨ran, rfl⟩
  | owes more low up =>
      rcases text : piece.text with _ | ⟨c, s⟩
      · exact absurd text piece.text_ne_nil
      · rw [text] at ran ascii
        rw [List.cons_append, run, step_owes_ascii (ascii c (by simp)) high] at ran
        cases ran

/-- The decoded bytes are read as the spelled ones are. -/
theorem decode_run {chars : Chars} {state : State} (high : state.High)
    (ran : run state chars.text = some .ground) : run state chars.decode = some .ground := by
  induction chars generalizing state with
  | nil => exact ran
  | cons piece chars induction =>
      rw [chars_text_cons] at ran
      rw [chars_decode_cons]
      by_cases escape : piece.Escape
      · obtain ⟨later, ground⟩ := escape_run escape high ran
        obtain ⟨ch, decode⟩ := escape_char escape
        rw [ground, run_append, decode, sequence_run (char_sequence ch)]
        have start : State.High .ground := trivial
        exact induction start later
      · cases piece with
        | raw c plain =>
            obtain ⟨next, stepped, later⟩ := Option.bind_eq_some_iff.mp ran
            have after := induction (step_high stepped) later
            change (step state c).bind (fun next => run next (Chars.decode chars)) = some .ground
            rw [stepped]
            exact after
        | short e b known => exact absurd trivial escape
        | code quad single => exact absurd trivial escape
        | pair first second halves => exact absurd trivial escape

/-- A well-formed string decodes to characters. -/
theorem decode_chars {chars : Chars} (fine : chars.fine = true) :
    ∃ text : List Char, chars.decode = text.flatMap String.utf8EncodeChar := by
  apply (well_formed_chars _).mp
  rw [well_formed_run]
  have start : State.High .ground := trivial
  exact decode_run start ((well_formed_run _).mp fine)

/-! ## No NUL -/

/-- The string at a `char *`. -/
def cString (s : Bytes) : Bytes := s.takeWhile (· != 0)

/-- A string that a `char *` carries whole. -/
def NulFree (s : Bytes) : Prop := ∀ c ∈ s, c ≠ 0

theorem c_string_whole {s : Bytes} (free : NulFree s) : cString s = s :=
  List.takeWhile_eq_self_iff.mpr fun c inside => by simpa using free c inside

theorem u8_emit_nul_free {cp : Nat} (present : cp ≠ 0) : NulFree (u8Emit cp) := by
  have high : ∀ base n : Nat, base.testBit 7 = true → UInt8.ofNat (base ||| n) ≠ 0 := by
    intro base n bit same
    have value := congrArg (fun c : UInt8 => c.toNat.testBit 7) same
    have kept : (base ||| n).testBit 7 = true := by
      rw [Nat.testBit_or, bit]
      rfl
    have eighth : ((base ||| n) % 2 ^ 8).testBit 7 = true := by
      rw [Nat.testBit_mod_two_pow, kept]
      rfl
    change (((base ||| n) % 2 ^ 8).testBit 7) = Nat.testBit 0 7 at value
    rw [eighth] at value
    cases value
  unfold u8Emit
  intro c inside
  split_ifs at inside with one two three
  · rw [List.mem_singleton.mp inside]
    intro same
    have value := congrArg UInt8.toNat same
    rw [byte_value (by omega)] at value
    exact present value
  · simp only [List.mem_cons, List.not_mem_nil, or_false] at inside
    rcases inside with same | same <;> rw [same] <;> exact high _ _ (by decide)
  · simp only [List.mem_cons, List.not_mem_nil, or_false] at inside
    rcases inside with same | same | same <;> rw [same] <;> exact high _ _ (by decide)
  · simp only [List.mem_cons, List.not_mem_nil, or_false] at inside
    rcases inside with same | same | same | same <;> rw [same] <;> exact high _ _ (by decide)

theorem decode_nul_free (chars : Chars) : NulFree chars.decode := by
  intro c inside
  obtain ⟨piece, _, decoded⟩ := List.mem_flatMap.mp inside
  cases piece with
  | raw b plain =>
      rw [List.mem_singleton.mp decoded]
      intro same
      rw [same] at plain
      exact absurd plain.1 (by decide)
  | short e b known =>
      rw [List.mem_singleton.mp decoded]
      intro same
      exact (unescape_byte known).2 same
  | code quad single => exact u8_emit_nul_free single.1 c decoded
  | pair high low halves =>
      have range := join_pair_range halves.1 halves.2
      have present : joinPair high.cp low.cp ≠ 0 := by omega
      exact u8_emit_nul_free present c decoded

end GridcoreRunner.Json
