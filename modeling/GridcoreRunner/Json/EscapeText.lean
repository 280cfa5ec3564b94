import GridcoreRunner.Json.Seams
import GridcoreRunner.Utf8Chars

/-!
# Escaped text between quotes

What `sb_esc` writes is the text of a JSON string that `parse_string` reads to its end. What
it reads is the text that was written, the bytes that begin no character replaced; the
replacement is stated with the encoding of scalar values and not with the measure the code
uses, and changes nothing exactly where the text is made of characters.
-/

namespace GridcoreRunner.Json

set_option autoImplicit false

open GridcoreRunner.Utf8

/-! ## The string builder -/

/-- The largest `size_t`. -/
def sizeMax : Nat := 2 ^ 64 - 1

/-- `sbuf`; its length is the length of `s`. -/
structure Sbuf where
  s : Bytes
  cap : Nat
  failed : Bool

/-- `sb_put`; memory is there when it is asked for. -/
def Sbuf.put (b : Sbuf) (text : Bytes) : Sbuf :=
  if b.failed then b
  else if b.cap < b.s.length + text.length + 1 then
    if sizeMax / 2 - b.s.length - 256 < text.length then { b with failed := true }
    else { b with s := b.s ++ text, cap := (b.s.length + text.length + 1) * 2 + 256 }
  else { b with s := b.s ++ text }

/-- `sb_esc` on a builder. -/
def Sbuf.esc (b : Sbuf) (s : Bytes) : Sbuf :=
  if b.failed then b
  else if (sizeMax - 8) / 6 < s.length then { b with failed := true }
  else b.put (sbEsc s)

/-- A text goes to a builder whole, or the builder has failed and keeps what it had. -/
theorem Sbuf.put_whole (b : Sbuf) (text : Bytes) :
    (b.put text).failed = true ∧ (b.put text).s = b.s ∨
      (b.put text).failed = false ∧ (b.put text).s = b.s ++ text := by
  unfold Sbuf.put
  by_cases failed : b.failed = true
  · rw [if_pos failed]
    exact Or.inl ⟨failed, rfl⟩
  · have works : b.failed = false := Bool.eq_false_iff.mpr failed
    rw [if_neg failed]
    by_cases grows : b.cap < b.s.length + text.length + 1
    · rw [if_pos grows]
      by_cases huge : sizeMax / 2 - b.s.length - 256 < text.length
      · rw [if_pos huge]
        exact Or.inl ⟨rfl, rfl⟩
      · rw [if_neg huge]
        exact Or.inr ⟨works, rfl⟩
    · rw [if_neg grows]
      exact Or.inr ⟨works, rfl⟩

theorem Sbuf.esc_whole (b : Sbuf) (s : Bytes) :
    (b.esc s).failed = true ∧ (b.esc s).s = b.s ∨
      (b.esc s).failed = false ∧ (b.esc s).s = b.s ++ sbEsc s := by
  unfold Sbuf.esc
  by_cases failed : b.failed = true
  · rw [if_pos failed]
    exact Or.inl ⟨failed, rfl⟩
  · rw [if_neg failed]
    by_cases huge : (sizeMax - 8) / 6 < s.length
    · rw [if_pos huge]
      exact Or.inl ⟨rfl, rfl⟩
    · rw [if_neg huge]
      exact b.put_whole (sbEsc s)

theorem Sbuf.put_works {b : Sbuf} {text : Bytes} (works : b.failed = false)
    (room : b.s.length + text.length + 256 ≤ sizeMax / 2) : (b.put text).failed = false := by
  unfold Sbuf.put
  rw [if_neg (by rw [works]; exact Bool.false_ne_true)]
  by_cases grows : b.cap < b.s.length + text.length + 1
  · rw [if_pos grows, if_neg (by omega)]
    exact works
  · rw [if_neg grows]
    exact works

theorem units_flatten (s : Bytes) : (units s).flatten = s := by
  induction s using by_units with
  | nil => rfl
  | cons c s induction => rw [units_cons, List.flatten_cons, induction, List.take_append_drop]

/-- Six bytes a byte are enough. -/
theorem sb_esc_length (s : Bytes) : (sbEsc s).length ≤ s.length * 6 := by
  have unit : ∀ u, IsUnit u → (escUnit u).length ≤ u.length * 6 := by
    intro u unit
    rcases u with _ | ⟨c, _ | ⟨d, u⟩⟩
    · exact Nat.le_refl 0
    · rw [escUnit]
      split_ifs
      · cases found : namedEscape c with
        | none => exact Nat.le_refl 6
        | some text =>
            have short := (named_escape_length found).1
            simp only [Option.getD_some, List.length_singleton]
            omega
      · cases found : namedEscape c with
        | none => exact Nat.le_add_left 1 5
        | some text =>
            have short := (named_escape_length found).1
            simp only [Option.getD_some, List.length_singleton]
            omega
      · exact Nat.le_add_left 3 3
    · change (c :: d :: u).length ≤ _
      omega
  rw [sb_esc_units]
  have whole := units_unit s
  have joined : (units s).flatten.length = s.length := by rw [units_flatten]
  rw [← joined]
  generalize units s = us at whole
  induction us with
  | nil => exact Nat.le_refl 0
  | cons u us induction =>
      have here := unit u (whole u List.mem_cons_self)
      have later := induction fun v inside => whole v (List.mem_cons_of_mem u inside)
      rw [List.flatMap_cons, List.flatten_cons, List.length_append, List.length_append]
      omega

/-- Where the texts together stay under half the addresses nothing fails. -/
theorem Sbuf.esc_works {b : Sbuf} {s : Bytes} (works : b.failed = false)
    (room : b.s.length + s.length * 6 + 256 ≤ sizeMax / 2) : (b.esc s).failed = false := by
  have short := sb_esc_length s
  have fits : ¬ (sizeMax - 8) / 6 < s.length := by
    have size : sizeMax = 18446744073709551615 := rfl
    omega
  unfold Sbuf.esc
  rw [if_neg (by rw [works]; exact Bool.false_ne_true), if_neg fits]
  exact put_works works (by omega)

/-- More room changes nothing: the loop has come to the end of the text. -/
theorem escape_room {cap : Nat} (s : Bytes) (room : s.length * 6 + 8 ≤ cap) :
    escapeLoop cap s.length s [] = sbEsc s := by
  rw [sb_esc_units, escape_loop_units (Nat.le_refl _) (by simpa using room), List.nil_append]

/-! ## The text of a string -/

theorem control_below {c : UInt8} (control : c < 0x20) : c.toNat < 32 :=
  UInt8.lt_iff_toNat_lt.mp control

/-- The digits `snprintf` writes for a control character. -/
def controlQuad (c : UInt8) (control : c < 0x20) : Quad where
  a := zero
  b := zero
  c := hexLower (c.toNat / 16)
  d := hexLower (c.toNat % 16)
  cp := c.toNat
  reads := by
    have all : ∀ n : Fin 32, hex4 zero zero (hexLower (n.val / 16)) (hexLower (n.val % 16)) =
        some n.val := by
      decide +kernel
    exact all ⟨c.toNat, control_below control⟩

/-- A byte below 0x80 that is not the NUL is written as one piece. -/
theorem ascii_piece {c : UInt8} (ascii : c < 0x80) (present : c ≠ 0) :
    ∃ piece : Piece, piece.text = escUnit [c] ∧ piece.decode = [c] := by
  rw [escUnit, if_pos ascii]
  cases found : namedEscape c with
  | some text =>
      obtain ⟨e, same, _, known⟩ := (named_escape_letter found).2
      exact ⟨.short e c known, same.symm, rfl⟩
  | none =>
      rw [Option.getD_none]
      by_cases control : c < 0x20
      · have below := control_below control
        have positive : c.toNat ≠ 0 := fun zero => present (UInt8.toNat_inj.mp zero)
        have single : c.toNat ≠ 0 ∧ isHigh c.toNat = false ∧ isLow c.toNat = false := by
          simp only [isHigh, isLow]
          grind
        refine ⟨.code (controlQuad c control) single, ?_, ?_⟩
        · rw [if_pos control]
          rfl
        · change u8Emit c.toNat = [c]
          rw [u8Emit, if_pos (by omega), UInt8.ofNat_toNat]
      · have other : c ≠ quote ∧ c ≠ backslash := by
          constructor
          · intro same
            rw [same] at found
            cases found
          · intro same
            rw [same] at found
            cases found
        refine ⟨.raw c ⟨by grind, other.1, other.2⟩, ?_, rfl⟩
        rw [if_neg control]
        rfl

/-- Bytes from 0x80 on stand in a string as they are. -/
theorem wide_pieces {u : Bytes} (wide : ∀ c ∈ u, 0x80 ≤ c) :
    ∃ chars : Chars, chars.text = u ∧ chars.decode = u := by
  induction u with
  | nil => exact ⟨[], rfl, rfl⟩
  | cons c u induction =>
      obtain ⟨chars, text, decode⟩ := induction fun d inside => wide d (List.mem_cons_of_mem c inside)
      have above := wide c List.mem_cons_self
      have plain : 0x20 ≤ c ∧ c ≠ quote ∧ c ≠ backslash := by
        simp only [quote, backslash]
        grind
      refine ⟨.raw c plain :: chars, ?_, ?_⟩
      · rw [chars_text_cons, text]
        rfl
      · rw [chars_decode_cons, decode]
        rfl

theorem replacement_wide : ∀ c ∈ replacement, 0x80 ≤ c := by
  intro c inside
  simp only [replacement, List.mem_cons, List.not_mem_nil, or_false] at inside
  rcases inside with same | same | same <;> rw [same] <;> decide

/-- What is written for an ASCII byte is ASCII. -/
theorem esc_unit_ascii {c : UInt8} (ascii : c < 0x80) : Utf8.Ascii (escUnit [c]) := by
  have hex : ∀ n : Fin 32, hexLower (n.val / 16) < 0x80 ∧ hexLower (n.val % 16) < 0x80 := by
    decide +kernel
  rw [escUnit, if_pos ascii]
  cases found : namedEscape c with
  | some text =>
      obtain ⟨e, same, _, known⟩ := (named_escape_letter found).2
      rw [Option.getD_some, same]
      intro b inside
      rcases List.mem_cons.mp inside with here | there
      · rw [here]
        decide
      · rw [List.mem_singleton.mp there]
        exact unescape_ascii known
  | none =>
      rw [Option.getD_none]
      by_cases control : c < 0x20
      · have digits := hex ⟨c.toNat, control_below control⟩
        rw [if_pos control]
        intro b inside
        simp only [controlEscape, List.mem_cons, List.not_mem_nil, or_false] at inside
        rcases inside with rfl | rfl | rfl | rfl | rfl | rfl
        · decide
        · decide
        · decide
        · decide
        · exact digits.1
        · exact digits.2
      · rw [if_neg control]
        intro b inside
        rw [List.mem_singleton.mp inside]
        exact ascii

/-! ## Measured characters -/

theorem sequence_wide {u : Bytes} (whole : Sequence u) :
    (∃ c, c < 0x80 ∧ u = [c]) ∨ ∀ c ∈ u, 0x80 ≤ c := by
  cases whole with
  | ascii c small => exact Or.inl ⟨c, small, rfl⟩
  | wide c s more low up owes length ran =>
      right
      have above : 0x80 ≤ c ∧ 0x80 ≤ low := by
        rcases lead_owes owes with ⟨-, first, -, rfl, -⟩ | ⟨-, first, -, rfl, -⟩ |
          ⟨-, first, -, rfl, -⟩
        · refine ⟨UInt8.le_iff_toNat_le.mpr (Nat.le_trans (by decide) first), by decide⟩
        · refine ⟨UInt8.le_iff_toNat_le.mpr (Nat.le_trans (by decide) first), ?_⟩
          split_ifs <;> decide
        · refine ⟨UInt8.le_iff_toNat_le.mpr (Nat.le_trans (by decide) first), ?_⟩
          split_ifs <;> decide
      have taken : s.take (more + 1) = s := List.take_of_length_le (by omega)
      have tail := (run_owes_take above.2 (by rw [taken]; exact ran)).2
      rw [taken] at tail
      intro d inside
      rcases List.mem_cons.mp inside with here | there
      · rw [here]
        exact above.1
      · exact tail d there

/-- `utf8_seq` measures the sequence a text begins with. -/
theorem utf8_seq_sequence {u : Bytes} (whole : Sequence u) (s : Bytes) :
    utf8Seq (u ++ s) = u.length := by
  cases whole with
  | ascii c small => exact utf8_seq_ascii small s
  | wide c t more low up owes length ran =>
      have above : 0x80 ≤ c := by
        rcases sequence_wide (.wide c t more low up owes length ran) with ⟨d, small, same⟩ | all
        · cases same
          cases length
        · exact all c List.mem_cons_self
      rcases utf8_seq_lead (t ++ s) above with ⟨none', -⟩ | ⟨more', low', up', owes', -, reads⟩
      · rw [none'] at owes
        cases owes
      · rw [owes] at owes'
        cases owes'
        rw [List.take_left' length, if_pos ran] at reads
        rw [List.cons_append, reads, List.length_cons, length]

/-- Where it measures something, that is a sequence. -/
theorem utf8_seq_take {c : UInt8} {s : Bytes} (some_ : 0 < utf8Seq (c :: s)) :
    Sequence ((c :: s).take (utf8Seq (c :: s))) := by
  by_cases small : c < 0x80
  · rw [utf8_seq_ascii small]
    exact .ascii c small
  · have wide : 0x80 ≤ c := by grind
    rcases utf8_seq_lead s wide with ⟨-, zero⟩ | ⟨more, low, up, owes, above, reads⟩
    · omega
    · have ran : run (.owes more low up) (s.take (more + 1)) = some .ground := by
        by_contra stuck
        rw [if_neg stuck] at reads
        omega
      rw [if_pos ran] at reads
      rw [reads, List.take_succ_cons]
      refine .wide c _ more low up owes ?_ ran
      rw [List.length_take]
      have room := (run_owes_take above ran).1
      omega

/-! ## What is read back -/

/-- The text with every byte that begins no character replaced. -/
inductive Repaired : Bytes → Bytes → Prop
  | nil : Repaired [] []
  | character (ch : Char) {s t : Bytes} (later : Repaired s t) :
      Repaired (String.utf8EncodeChar ch ++ s) (String.utf8EncodeChar ch ++ t)
  | stray (c : UInt8) {s t : Bytes} (never : ∀ ch, ¬ String.utf8EncodeChar ch <+: c :: s)
      (later : Repaired s t) :
      Repaired (c :: s) (String.utf8EncodeChar (Char.ofNat 0xFFFD) ++ t)

theorem replacement_char : String.utf8EncodeChar (Char.ofNat 0xFFFD) = replacement := by decide

theorem cleaned_sequence {u : Bytes} (whole : Sequence u) (s : Bytes) :
    cleaned (u ++ s) = u ++ cleaned s := by
  have measured := utf8_seq_sequence whole s
  have alone := utf8_seq_sequence whole []
  have positive : 1 ≤ u.length := by cases whole <;> simp
  rw [List.append_nil] at alone
  rcases same : u with _ | ⟨c, t⟩
  · rw [same] at positive
    cases positive
  · rw [same] at measured alone positive
    rw [List.cons_append] at measured ⊢
    rw [cleaned_cons, measured, Nat.max_eq_right positive, ← List.cons_append, List.take_left,
      List.drop_left, shown, if_pos alone]

theorem cleaned_stray_byte {c : UInt8} {s : Bytes}
    (never : ∀ ch, ¬ String.utf8EncodeChar ch <+: c :: s) :
    cleaned (c :: s) = replacement ++ cleaned s := by
  have zero : utf8Seq (c :: s) = 0 := by
    by_contra some_
    obtain ⟨ch, spelled⟩ := sequence_char (utf8_seq_take (Nat.pos_of_ne_zero some_))
    apply never ch
    rw [spelled]
    exact List.take_prefix _ _
  have wide : 0x80 ≤ c := by
    by_contra small
    rw [utf8_seq_ascii (by grind)] at zero
    cases zero
  exact cleaned_stray wide zero

/-- There is one such text, and the cleaned text is it. -/
theorem repaired_iff (s t : Bytes) : Repaired s t ↔ t = cleaned s := by
  constructor
  · intro repaired
    induction repaired with
    | nil => rfl
    | character ch later induction => rw [induction, cleaned_sequence (char_sequence ch)]
    | stray c never later induction => rw [induction, cleaned_stray_byte never, replacement_char]
  · intro same
    rw [same]
    clear same t
    induction s using by_units with
    | nil => exact .nil
    | cons c s induction =>
        by_cases some_ : 0 < utf8Seq (c :: s)
        · have whole := utf8_seq_take some_
          obtain ⟨ch, spelled⟩ := sequence_char whole
          have length : max 1 (utf8Seq (c :: s)) = utf8Seq (c :: s) := by omega
          have split := List.take_append_drop (utf8Seq (c :: s)) (c :: s)
          have written := cleaned_sequence whole ((c :: s).drop (utf8Seq (c :: s)))
          rw [length] at induction
          rw [split] at written
          rw [written, ← spelled]
          have both := Repaired.character ch induction
          rw [spelled, split, ← spelled] at both
          exact both
        · have zero : utf8Seq (c :: s) = 0 := by omega
          rw [zero, Nat.max_zero, List.drop_succ_cons, List.drop_zero] at induction
          have never : ∀ ch, ¬ String.utf8EncodeChar ch <+: c :: s := by
            intro ch front
            obtain ⟨rest, same⟩ := front
            have measured := utf8_seq_sequence (char_sequence ch) rest
            rw [same, zero] at measured
            exact String.utf8EncodeChar_ne_nil (List.length_eq_zero_iff.mp measured.symm)
          rw [cleaned_stray_byte never, ← replacement_char]
          exact .stray c never induction

/-- What is read back is made of characters. -/
theorem repaired_chars {s t : Bytes} (repaired : Repaired s t) :
    ∃ chars : List Char, t = chars.flatMap String.utf8EncodeChar := by
  induction repaired with
  | nil => exact ⟨[], rfl⟩
  | character ch later induction =>
      obtain ⟨chars, same⟩ := induction
      exact ⟨ch :: chars, by rw [List.flatMap_cons, same]⟩
  | stray c never later induction =>
      obtain ⟨chars, same⟩ := induction
      exact ⟨Char.ofNat 0xFFFD :: chars, by rw [List.flatMap_cons, same]⟩

theorem cleaned_chars (chars : List Char) :
    cleaned (chars.flatMap String.utf8EncodeChar) = chars.flatMap String.utf8EncodeChar := by
  induction chars with
  | nil => rfl
  | cons ch chars induction =>
      rw [List.flatMap_cons, cleaned_sequence (char_sequence ch), induction]

/-! ## The string between its quotes -/

/-- The pieces of one unit. -/
theorem unit_pieces {u : Bytes} (unit : IsUnit u) (present : (0 : UInt8) ∉ u) :
    ∃ chars : Chars, chars.text = escUnit u ∧ chars.decode = shown u ∧
      ∀ rest, Utf8.wellFormed (chars.text ++ rest) = Utf8.wellFormed rest := by
  cases unit with
  | stray c wide alone =>
      have ascii : ¬ c < 0x80 := by grind
      have seen : shown [c] = replacement := by simp [shown, alone]
      have written : escUnit [c] = replacement := by simp [escUnit, ascii]
      obtain ⟨chars, text, decode⟩ := wide_pieces replacement_wide
      refine ⟨chars, text.trans written.symm, decode.trans seen.symm, ?_⟩
      intro rest
      rw [text, ← replacement_char]
      exact well_formed_sequence (char_sequence _) rest
  | character c s whole =>
      have some_ : 0 < utf8Seq (c :: s) := by
        rw [whole]
        exact Nat.succ_pos _
      have measured := utf8_seq_take some_
      rw [whole, List.take_length] at measured
      have seen : shown (c :: s) = c :: s := if_pos whole
      rcases sequence_wide measured with ⟨d, small, same⟩ | wide
      · rw [same] at present seen ⊢
        obtain ⟨piece, text, decode⟩ := ascii_piece small fun zero => present (by simp [zero])
        refine ⟨[piece], ?_, ?_, ?_⟩
        · rw [chars_text_cons, text, chars_text_nil, List.append_nil]
        · rw [chars_decode_cons, decode, chars_decode_nil, List.append_nil, seen]
        · intro rest
          have plain : Utf8.Ascii (escUnit [d]) := esc_unit_ascii small
          rw [chars_text_cons, text, chars_text_nil, List.append_nil]
          exact Utf8.well_formed_ascii_append plain
      · obtain ⟨chars, text, decode⟩ := wide_pieces wide
        have written : escUnit (c :: s) = c :: s := by
          cases s with
          | nil =>
              exact absurd whole (utf8_seq_wide (wide c List.mem_cons_self))
          | cons d s => rfl
        refine ⟨chars, text.trans written.symm, decode.trans seen.symm, ?_⟩
        intro rest
        rw [text]
        exact well_formed_sequence measured rest

/-- The pieces of a whole text: escaped, cleaned and well formed. -/
theorem escaped_pieces {s : Bytes} (present : (0 : UInt8) ∉ s) :
    ∃ chars : Chars, chars.text = sbEsc s ∧ chars.decode = cleaned s ∧ chars.fine = true := by
  have pieces : ∀ us : List Bytes, (∀ u ∈ us, IsUnit u ∧ (0 : UInt8) ∉ u) →
      ∃ chars : Chars, chars.text = us.flatMap escUnit ∧ chars.decode = us.flatMap shown ∧
        chars.fine = true := by
    intro us
    induction us with
    | nil =>
        intro _
        exact ⟨[], rfl, rfl, rfl⟩
    | cons u us induction =>
        intro all
        have here := all u List.mem_cons_self
        obtain ⟨front, frontText, frontDecode, frontFine⟩ := unit_pieces here.1 here.2
        obtain ⟨back, backText, backDecode, backFine⟩ :=
          induction fun v inside => all v (List.mem_cons_of_mem u inside)
        refine ⟨front ++ back, ?_, ?_, ?_⟩
        · rw [chars_text_append, frontText, backText, List.flatMap_cons]
        · rw [chars_decode_append, frontDecode, backDecode, List.flatMap_cons]
        · rw [Chars.fine, chars_text_append, frontFine]
          exact backFine
  rw [sb_esc_units]
  apply pieces
  intro u inside
  refine ⟨units_unit s u inside, ?_⟩
  intro nul
  apply present
  rw [← units_flatten s]
  exact List.mem_flatten.mpr ⟨u, inside, nul⟩

theorem parse_string_escaped {s : Bytes} (present : (0 : UInt8) ∉ s) (rest : Bytes) :
    parseString (quote :: (sbEsc s ++ quote :: rest)) = some (cleaned s, rest) := by
  obtain ⟨chars, text, decode, fine⟩ := escaped_pieces present
  rw [← text, ← decode, parse_string_chars, if_pos fine]

/-- Escaping a text without a NUL writes all of it, and between quotes it reads back as the
text with the bytes that begin no character replaced: the text itself exactly when it is
made of characters. -/
theorem sb_esc_between_quotes (s : Bytes) (present : (0 : UInt8) ∉ s) :
    (∀ cap, s.length * 6 + 8 ≤ cap → escapeLoop cap s.length s [] = sbEsc s) ∧
      (∀ b : Sbuf, (b.esc s).failed = true ∧ (b.esc s).s = b.s ∨
        (b.esc s).failed = false ∧ (b.esc s).s = b.s ++ sbEsc s) ∧
      (∀ b : Sbuf, b.failed = false → b.s.length + s.length * 6 + 256 ≤ sizeMax / 2 →
        (b.esc s).failed = false) ∧
      ∃ t, (∀ rest, parseString (quote :: (sbEsc s ++ quote :: rest)) = some (t, rest)) ∧
        (∀ t', Repaired s t' ↔ t' = t) ∧
        (t = s ↔ ∃ chars : List Char, s = chars.flatMap String.utf8EncodeChar) := by
  refine ⟨fun cap room => escape_room s room, fun b => b.esc_whole s,
    fun b works room => Sbuf.esc_works works room, cleaned s,
    parse_string_escaped present, repaired_iff s, ?_⟩
  constructor
  · intro same
    obtain ⟨chars, made⟩ := repaired_chars ((repaired_iff s _).mpr rfl)
    exact ⟨chars, by rw [← made, same]⟩
  · rintro ⟨chars, made⟩
    rw [made]
    exact cleaned_chars chars

/-- A truncated character between a tab and a quote. -/
theorem truncated_between_quotes :
    let s : Bytes := [0x09, 0xE2, 0x82, 0x22]
    (∀ cap, s.length * 6 + 8 ≤ cap → escapeLoop cap s.length s [] = sbEsc s) ∧
      (∀ b : Sbuf, (b.esc s).failed = true ∧ (b.esc s).s = b.s ∨
        (b.esc s).failed = false ∧ (b.esc s).s = b.s ++ sbEsc s) ∧
      (∀ b : Sbuf, b.failed = false → b.s.length + s.length * 6 + 256 ≤ sizeMax / 2 →
        (b.esc s).failed = false) ∧
      ∃ t, (∀ rest, parseString (quote :: (sbEsc s ++ quote :: rest)) = some (t, rest)) ∧
        (∀ t', Repaired s t' ↔ t' = t) ∧
        (t = s ↔ ∃ chars : List Char, s = chars.flatMap String.utf8EncodeChar) :=
  sb_esc_between_quotes [0x09, 0xE2, 0x82, 0x22] (by decide)

end GridcoreRunner.Json
