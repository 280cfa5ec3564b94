import GridcoreRunner.Json.Document

/-!
# The parser reads strings and numbers back

`parse_string` and `parse_number` on a spelled string or numeral, whatever
follows it: the value when the spelling is fine, a failure when it is not.
-/

namespace GridcoreRunner.Json

set_option autoImplicit false

open Utf8 (lead run)

/-! ## UTF-8 sequences -/

/-- The masks of `utf8_seq`, over all bytes. -/
theorem mask_ranges : ∀ b : Fin 256,
    (UInt8.ofFin b &&& 0xE0 = 0xC0 ↔ 0xC0 ≤ UInt8.ofFin b ∧ UInt8.ofFin b < 0xE0) ∧
    (UInt8.ofFin b &&& 0xF0 = 0xE0 ↔ 0xE0 ≤ UInt8.ofFin b ∧ UInt8.ofFin b < 0xF0) ∧
    (UInt8.ofFin b &&& 0xF8 = 0xF0 ↔ 0xF0 ≤ UInt8.ofFin b ∧ UInt8.ofFin b < 0xF8) ∧
    (UInt8.ofFin b &&& 0xC0 = 0x80 ↔ 0x80 ≤ UInt8.ofFin b ∧ UInt8.ofFin b ≤ 0xBF) := by
  decide +kernel

theorem mask_two (c : UInt8) : c &&& 0xE0 = 0xC0 ↔ 0xC0 ≤ c ∧ c < 0xE0 :=
  (mask_ranges c.toFin).1

theorem mask_three (c : UInt8) : c &&& 0xF0 = 0xE0 ↔ 0xE0 ≤ c ∧ c < 0xF0 :=
  (mask_ranges c.toFin).2.1

theorem mask_four (c : UInt8) : c &&& 0xF8 = 0xF0 ↔ 0xF0 ≤ c ∧ c < 0xF8 :=
  (mask_ranges c.toFin).2.2.1

theorem mask_continuation (c : UInt8) : c &&& 0xC0 = 0x80 ↔ 0x80 ≤ c ∧ c ≤ 0xBF :=
  (mask_ranges c.toFin).2.2.2

theorem run_ground_nil : run .ground [] = some .ground := rfl

theorem utf8_seq_two {c : UInt8} {s : Bytes} (low : 0xC0 ≤ c) (up : c < 0xE0) :
    utf8Seq (c :: s) =
      if 0xC2 ≤ c ∧ run (.owes 0 0x80 0xBF) (s.take 1) = some .ground then 2 else 0 := by
  have wide : ¬c < 0x80 := by grind
  have first : c &&& 0xE0 = 0xC0 := (mask_two c).mpr ⟨low, up⟩
  rcases s with _ | ⟨x, s⟩
  · simp [utf8Seq, wide, first]
  · simp [utf8Seq, wide, first, bne, mask_continuation, run_ground_nil]
    simp only [UInt8.le_iff_toNat_le, UInt8.lt_iff_toNat_lt, UInt8.reduceToNat] at *
    split_ifs <;> omega

theorem utf8_seq_three {c : UInt8} {s : Bytes} (low : 0xE0 ≤ c) (up : c < 0xF0) :
    utf8Seq (c :: s) =
      if run (.owes 1 (if c = 0xE0 then 0xA0 else 0x80) (if c = 0xED then 0x9F else 0xBF))
        (s.take 2) = some .ground then 3 else 0 := by
  have wide : ¬c < 0x80 := by grind
  have notTwo : ¬c &&& 0xE0 = 0xC0 := by
    rw [mask_two]
    grind
  have first : c &&& 0xF0 = 0xE0 := (mask_three c).mpr ⟨low, up⟩
  rcases s with _ | ⟨x, _ | ⟨y, s⟩⟩
  · simp [utf8Seq, wide, notTwo, first]
  · simp [utf8Seq, wide, notTwo, first]
  · simp [utf8Seq, wide, notTwo, first, bne, mask_continuation, run_ground_nil]
    simp only [UInt8.le_iff_toNat_le, UInt8.lt_iff_toNat_lt, UInt8.reduceToNat,
      ← UInt8.toNat_inj] at *
    split_ifs <;> simp only [UInt8.reduceToNat] at * <;> omega

theorem utf8_seq_four {c : UInt8} {s : Bytes} (low : 0xF0 ≤ c) :
    utf8Seq (c :: s) =
      if c ≤ 0xF4 ∧ run (.owes 2 (if c = 0xF0 then 0x90 else 0x80)
        (if c = 0xF4 then 0x8F else 0xBF)) (s.take 3) = some .ground then 4 else 0 := by
  have wide : ¬c < 0x80 := by grind
  have notTwo : ¬c &&& 0xE0 = 0xC0 := by
    rw [mask_two]
    grind
  have notThree : ¬c &&& 0xF0 = 0xE0 := by
    rw [mask_three]
    grind
  by_cases up : c < 0xF8
  · have first : c &&& 0xF8 = 0xF0 := (mask_four c).mpr ⟨low, up⟩
    rcases s with _ | ⟨x, _ | ⟨y, _ | ⟨z, s⟩⟩⟩
    · simp [utf8Seq, wide, notTwo, notThree, first]
    · simp [utf8Seq, wide, notTwo, notThree, first]
    · simp [utf8Seq, wide, notTwo, notThree, first]
    · simp [utf8Seq, wide, notTwo, notThree, first, bne, mask_continuation, run_ground_nil]
      simp only [UInt8.le_iff_toNat_le, UInt8.lt_iff_toNat_lt, UInt8.reduceToNat,
        ← UInt8.toNat_inj] at *
      split_ifs <;> simp only [UInt8.reduceToNat] at * <;> omega
  · have first : ¬c &&& 0xF8 = 0xF0 := by
      rw [mask_four]
      grind
    have beyond : ¬c ≤ 0xF4 := by grind
    simp [utf8Seq, wide, notTwo, notThree, first, beyond]

/-- `utf8_seq` measures one character of the machine's. -/
theorem utf8_seq_lead {c : UInt8} (s : Bytes) (wide : 0x80 ≤ c) :
    (lead c = none ∧ utf8Seq (c :: s) = 0) ∨
      ∃ more low up, lead c = some (.owes more low up) ∧ 0x80 ≤ low ∧
        utf8Seq (c :: s) =
          if run (.owes more low up) (s.take (more + 1)) = some .ground then more + 2 else 0 := by
  have notAscii : ¬c < 0x80 := by grind
  by_cases stray : c < 0xC2
  · left
    constructor
    · simp [lead, notAscii, stray]
    · by_cases two : 0xC0 ≤ c
      · rw [utf8_seq_two two (by grind), if_neg]
        grind
      · have notTwo := mask_two c
        have notThree := mask_three c
        have notFour := mask_four c
        simp only [utf8Seq, notAscii]
        grind
  by_cases two : c < 0xE0
  · right
    refine ⟨0, 0x80, 0xBF, by simp [lead, notAscii, stray, two], by decide, ?_⟩
    rw [utf8_seq_two (by grind) two]
    grind
  by_cases three : c < 0xF0
  · right
    refine ⟨1, _, _, ?_, ?_, utf8_seq_three (by grind) three⟩
    · simp only [lead, notAscii, stray, two]
      grind
    · grind
  · rw [utf8_seq_four (by grind)]
    by_cases four : c ≤ 0xF4
    · right
      refine ⟨2, _, _, ?_, ?_, by rw [if_congr (and_iff_right four) rfl rfl]⟩
      · simp only [lead, notAscii, stray, two, three]
        grind
      · grind
    · left
      constructor
      · simp only [lead, notAscii, stray, two, three]
        grind
      · simp [four]

/-! ## Strings -/

theorem unescape_ascii {e b : UInt8} (known : unescape e = some b) : e < 0x80 := by
  unfold unescape at known
  split_ifs at known <;> grind

theorem Quad.digits (quad : Quad) : ∃ x y z w, hexDigit quad.a = some x ∧
    hexDigit quad.b = some y ∧ hexDigit quad.c = some z ∧ hexDigit quad.d = some w ∧
      quad.cp = ((x * 16 + y) * 16 + z) * 16 + w := by
  have reads := quad.reads
  simp only [hex4, Option.bind_eq_some_iff, Option.map_eq_some_iff] at reads
  rcases reads with ⟨x, hx, y, hy, z, hz, w, hw, same⟩
  exact ⟨x, y, z, w, hx, hy, hz, hw, same.symm⟩

theorem Quad.ascii (quad : Quad) : Utf8.Ascii quad.text := by
  rcases quad.digits with ⟨x, y, z, w, hx, hy, hz, hw, _⟩
  simp only [Utf8.Ascii, Quad.text, List.mem_cons, List.not_mem_nil, or_false, forall_eq_or_imp,
    forall_eq]
  exact ⟨hex_digit_ascii hx, hex_digit_ascii hy, hex_digit_ascii hz, hex_digit_ascii hw⟩

/-- Escapes are ASCII. -/
def Piece.Escape : Piece → Prop
  | .raw _ _ => False
  | _ => True

theorem Piece.ascii {piece : Piece} (escape : piece.Escape) : Utf8.Ascii piece.text := by
  cases piece with
  | raw c plain => exact escape.elim
  | short e b known =>
      have ascii := unescape_ascii known
      intro c member
      simp only [Piece.text, List.mem_cons, List.not_mem_nil, or_false] at member
      grind
  | code quad single =>
      intro c member
      simp only [Piece.text, List.mem_cons] at member
      rcases member with rfl | rfl | digit
      · decide
      · decide
      · exact quad.ascii c digit
  | pair high low halves =>
      intro c member
      simp only [Piece.text, List.cons_append, List.mem_cons, List.mem_append] at member
      rcases member with rfl | rfl | digit | rfl | rfl | digit
      · decide
      · decide
      · exact high.ascii c digit
      · decide
      · decide
      · exact low.ascii c digit

theorem chars_fine_escape {piece : Piece} (escape : piece.Escape) (chars : Chars) :
    Chars.fine (piece :: chars) = Chars.fine chars :=
  Utf8.well_formed_ascii_append (Piece.ascii escape)

theorem Piece.text_ne_nil (piece : Piece) : piece.text ≠ [] := by
  cases piece <;> simp [Piece.text]

/-- Bytes that are not ASCII stand in a string only as they are. -/
theorem chars_front {count : Nat} {chars : Chars} {rest : Bytes}
    (within : count ≤ (Chars.text chars ++ quote :: rest).length)
    (wide : ∀ b ∈ (Chars.text chars ++ quote :: rest).take count, 0x80 ≤ b) :
    ∃ back : Chars, back.length + count = chars.length ∧
      Chars.text chars = (Chars.text chars ++ quote :: rest).take count ++ Chars.text back ∧
      Chars.decode chars = (Chars.text chars ++ quote :: rest).take count ++ Chars.decode back := by
  induction count generalizing chars with
  | zero => exact ⟨chars, by simp⟩
  | succ count induction =>
      cases chars with
      | nil =>
          have first := wide quote (by simp)
          exact absurd first (by decide)
      | cons piece chars =>
          cases piece with
          | raw c plain =>
              simp only [chars_text_cons, Piece.text, List.cons_append, List.nil_append,
                List.length_cons, List.take_succ_cons, List.mem_cons, forall_eq_or_imp] at within wide
              rcases induction (by omega) wide.2 with ⟨back, length, text, decode⟩
              refine ⟨back, by simp; omega, ?_, ?_⟩
              · simp only [chars_text_cons, Piece.text, List.cons_append, List.nil_append,
                  List.take_succ_cons]
                rw [← text]
              · simp only [chars_decode_cons, chars_text_cons, Piece.text, Piece.decode,
                  List.cons_append, List.nil_append, List.take_succ_cons]
                rw [← decode]
          | short e b known =>
              have first := wide backslash (by simp [Piece.text])
              exact absurd first (by decide)
          | code quad single =>
              have first := wide backslash (by simp [Piece.text])
              exact absurd first (by decide)
          | pair high low halves =>
              have first := wide backslash (by simp [Piece.text])
              exact absurd first (by decide)

theorem unicode_escape_code (quad : Quad) (s : Bytes)
    (single : quad.cp ≠ 0 ∧ isHigh quad.cp = false ∧ isLow quad.cp = false) :
    unicodeEscape (quad.text ++ s) = some (quad.cp, s) := by
  simp [unicodeEscape, Quad.text, quad.reads, single.1, single.2.1, single.2.2]

theorem unicode_escape_pair (high low : Quad) (s : Bytes)
    (halves : isHigh high.cp = true ∧ isLow low.cp = true) :
    unicodeEscape (high.text ++ backslash :: letterU :: (low.text ++ s)) =
      some (joinPair high.cp low.cp, s) := by
  have positive : high.cp ≠ 0 := by
    intro nul
    have half := halves.1
    rw [nul] at half
    exact absurd half (by decide)
  simp [unicodeEscape, Quad.text, high.reads, low.reads, positive, halves.1, halves.2]

/-- The loop over one escape. -/
theorem string_loop_escape {piece : Piece} (escape : piece.Escape) (rounds : Nat) (s out : Bytes) :
    stringLoop (rounds + 1) (piece.text ++ s) out = stringLoop rounds s (out ++ piece.decode) := by
  cases piece with
  | raw c plain => exact escape.elim
  | short e b known =>
      have other : e ≠ letterU := by
        rintro rfl
        have unknown : unescape letterU = none := by decide
        rw [unknown] at known
        cases known
      have notQuote : (backslash : UInt8) ≠ quote := by decide
      simp [Piece.text, Piece.decode, stringLoop, notQuote, other, known]
  | code quad single =>
      have notQuote : (backslash : UInt8) ≠ quote := by decide
      simp [Piece.text, Piece.decode, stringLoop, notQuote, unicode_escape_code quad s single]
  | pair high low halves =>
      have notQuote : (backslash : UInt8) ≠ quote := by decide
      simp [Piece.text, Piece.decode, stringLoop, notQuote,
        unicode_escape_pair high low s halves]

/-- A string that goes on with a character of several bytes: `utf8_seq` measures
it and it is whole, or `utf8_seq` refuses it and the string is not well formed. -/
theorem chars_wide {c : UInt8} (wide : 0x80 ≤ c) (plain : 0x20 ≤ c ∧ c ≠ quote ∧ c ≠ backslash)
    (chars : Chars) (rest : Bytes) :
    (utf8Seq (c :: (Chars.text chars ++ quote :: rest)) = 0 ∧
        Chars.fine (.raw c plain :: chars) = false) ∨
      ∃ (count : Nat) (back : Chars),
        utf8Seq (c :: (Chars.text chars ++ quote :: rest)) = count + 1 ∧
        back.length ≤ chars.length ∧
        (Chars.text chars ++ quote :: rest).drop count = Chars.text back ++ quote :: rest ∧
        Chars.decode chars =
          (Chars.text chars ++ quote :: rest).take count ++ Chars.decode back ∧
        Chars.fine (.raw c plain :: chars) = Chars.fine back := by
  have fine : Chars.fine (.raw c plain :: chars) = Utf8.wellFormed (c :: Chars.text chars) := rfl
  rcases utf8_seq_lead (Chars.text chars ++ quote :: rest) wide with
    ⟨stray, refused⟩ | ⟨more, low, up, first, above, measured⟩
  · left
    refine ⟨refused, ?_⟩
    rw [fine]
    simp [Utf8.wellFormed, run, Utf8.step, stray]
  have runs : run .ground (c :: Chars.text chars) = run (.owes more low up) (Chars.text chars) := by
    simp [run, Utf8.step, first]
  by_cases whole : run (.owes more low up)
      ((Chars.text chars ++ quote :: rest).take (more + 1)) = some .ground
  · right
    have bounds := Utf8.run_owes_take above whole
    rcases chars_front bounds.1 bounds.2 with ⟨back, length, text, decode⟩
    have split : Chars.text chars ++ quote :: rest =
        (Chars.text chars ++ quote :: rest).take (more + 1) ++
          (Chars.text back ++ quote :: rest) := by
      rw [← List.append_assoc, ← text]
    have tail : (Chars.text chars ++ quote :: rest).drop (more + 1) =
        Chars.text back ++ quote :: rest := by
      have both := (List.take_append_drop (more + 1) (Chars.text chars ++ quote :: rest)).trans split
      exact List.append_cancel_left both
    refine ⟨more + 1, back, by rw [measured, if_pos whole], by omega, tail, decode, ?_⟩
    rw [fine]
    unfold Utf8.wellFormed
    rw [runs, text, Utf8.run_append, whole]
    rfl
  · left
    refine ⟨by rw [measured, if_neg whole], ?_⟩
    rw [fine]
    have broken : run .ground (c :: Chars.text chars) ≠ some .ground := by
      intro ran
      rw [runs] at ran
      have parts := Utf8.run_owes_split ran
      have bounds := Utf8.run_owes_take above parts.1
      apply whole
      rw [List.take_append_of_le_length bounds.1]
      exact parts.1
    simpa [Utf8.wellFormed] using broken

/-- The loop of `parse_string` reads well-formed characters up to their quote. -/
theorem string_loop_chars (chars : Chars) (rest : Bytes) {rounds : Nat}
    (enough : chars.length < rounds) (out : Bytes) :
    stringLoop rounds (Chars.text chars ++ quote :: rest) out =
      if Chars.fine chars then some (out ++ Chars.decode chars, rest) else none := by
  -- rounds bound the pieces that are left; a raw character takes several at once
  induction rounds generalizing chars out with
  | zero => omega
  | succ rounds induction =>
      cases chars with
      | nil => simp [stringLoop, Chars.fine]
      | cons piece chars =>
          simp only [List.length_cons] at enough
          by_cases escape : piece.Escape
          · rw [chars_text_cons, List.append_assoc, string_loop_escape escape,
              induction chars (by omega), chars_fine_escape escape]
            simp
          cases piece with
          | raw c plain =>
              by_cases ascii : c < 0x80
              · have fine : Chars.fine (.raw c plain :: chars) = Chars.fine chars :=
                  Utf8.well_formed_cons_ascii ascii
                have printable : ¬c < 0x20 := by grind
                simp only [chars_text_cons, Piece.text, List.cons_append, List.nil_append,
                  stringLoop, plain.2.1, plain.2.2, printable, ascii, if_true, if_false]
                rw [induction chars (by omega), fine]
                simp [Piece.decode]
              · have wide : 0x80 ≤ c := by grind
                have printable : ¬c < 0x20 := by grind
                simp only [chars_text_cons, Piece.text, List.cons_append, List.nil_append,
                  stringLoop, plain.2.1, plain.2.2, printable, ascii, if_false]
                rcases chars_wide wide plain chars rest with
                  ⟨refused, broken⟩ | ⟨count, back, measured, shorter, tail, decode, fine⟩
                · simp [refused, broken]
                · rw [measured, if_neg (Nat.succ_ne_zero count), List.drop_succ_cons, tail,
                    List.take_succ_cons, induction back (by omega), fine]
                  simp [Piece.decode, decode]
          | _ => exact absurd trivial escape

/-- `parse_string` of a string. -/
theorem parse_string_chars (chars : Chars) (rest : Bytes) :
    parseString (quote :: (Chars.text chars ++ quote :: rest)) =
      if Chars.fine chars then some (Chars.decode chars, rest) else none := by
  have nonempty : chars.length ≤ (Chars.text chars).length := by
    induction chars with
    | nil => simp
    | cons piece chars induction =>
        have positive := List.length_pos_iff.mpr piece.text_ne_nil
        simp only [chars_text_cons, List.length_append, List.length_cons]
        omega
  have enough : chars.length < (Chars.text chars ++ quote :: rest).length := by
    simp only [List.length_append, List.length_cons]
    omega
  simp only [parseString, if_true, string_loop_chars chars rest enough, List.nil_append]

/-! ## Numbers -/

/-- No digit goes on. -/
def NoDigit (rest : Bytes) : Prop := ∀ c, rest.head? = some c → isDigit c = false

/-- Nothing goes on that could still belong to a numeral. -/
def NumberEnds (rest : Bytes) : Prop :=
  ∀ c, rest.head? = some c → isDigit c = false ∧ c ≠ dot ∧ ¬Marker c

theorem NumberEnds.noDigit {rest : Bytes} (ends : NumberEnds rest) : NoDigit rest :=
  fun c head => (ends c head).1

theorem drop_digits {ds rest : Bytes} (digits : ∀ c ∈ ds, isDigit c = true)
    (ends : NoDigit rest) : (ds ++ rest).dropWhile isDigit = rest := by
  induction ds with
  | nil =>
      cases rest with
      | nil => rfl
      | cons c rest => simp [ends c rfl]
  | cons d ds induction =>
      rw [List.cons_append, List.dropWhile_cons_of_pos (digits d (by simp))]
      exact induction fun c member => digits c (List.mem_cons_of_mem _ member)

theorem skip_digits {ds rest : Bytes} (digits : Digits ds) (ends : NoDigit rest) :
    skipDigits (ds ++ rest) = some rest := by
  cases ds with
  | nil => exact absurd rfl digits.1
  | cons d ds =>
      simp only [List.cons_append, skipDigits, digits.2 d (by simp), if_true]
      rw [drop_digits (fun c member => digits.2 c (List.mem_cons_of_mem _ member)) ends]

theorem skip_whole {ds rest : Bytes} (whole : Whole ds) (ends : NoDigit rest) :
    skipWhole (ds ++ rest) = some rest := by
  rcases whole with rfl | ⟨digits, proper⟩
  · cases rest with
    | nil => rfl
    | cons c rest => simp [skipWhole, ends c rfl]
  · cases ds with
    | nil => exact absurd rfl digits.1
    | cons d ds =>
        have other : d ≠ zero := by simpa using proper
        have read := skip_digits digits ends
        rw [List.cons_append] at read ⊢
        simp only [skipWhole, other, if_false]
        exact read

theorem skip_fraction {text rest : Bytes} (fraction : Fraction text) (ends : NoDigit rest)
    (noPoint : rest.head? ≠ some dot) : skipFraction (text ++ rest) = some rest := by
  rcases fraction with rfl | ⟨ds, digits, rfl⟩
  · cases rest with
    | nil => rfl
    | cons c rest =>
        have other : c ≠ dot := by simpa using noPoint
        simp [skipFraction, other]
  · simp only [List.cons_append, skipFraction, if_true]
    exact skip_digits digits ends

theorem skip_power_sign {sign ds rest : Bytes} (signed : PowerSign sign) (digits : Digits ds) :
    skipSign (fun c => c == plus || c == minus) (sign ++ (ds ++ rest)) = ds ++ rest := by
  rcases signed with rfl | rfl | rfl
  · cases ds with
    | nil => exact absurd rfl digits.1
    | cons d ds =>
        have digit := digits.2 d (by simp)
        have other : (d == plus || d == minus) = false := by
          simp only [isDigit] at digit
          grind
        simp [skipSign, other]
  · rfl
  · rfl

theorem skip_exponent {text rest : Bytes} (exponent : Exponent text) (ends : NumberEnds rest) :
    skipExponent (text ++ rest) = some rest := by
  rcases exponent with rfl | ⟨e, sign, ds, marker, signed, digits, rfl⟩
  · cases rest with
    | nil => rfl
    | cons c rest =>
        have other : ¬(c = letterE ∨ c = capitalE) := (ends c rfl).2.2
        simp [skipExponent, other]
  · have marked : e = letterE ∨ e = capitalE := marker
    simp only [List.cons_append, skipExponent, marked, if_true, List.append_assoc]
    rw [skip_power_sign signed digits, skip_digits digits ends.noDigit]

theorem exponent_head {text rest : Bytes} (exponent : Exponent text) (ends : NumberEnds rest) :
    NoDigit (text ++ rest) ∧ (text ++ rest).head? ≠ some dot := by
  rcases exponent with rfl | ⟨e, sign, ds, marker, signed, digits, rfl⟩
  · constructor
    · exact ends.noDigit
    · intro head
      exact (ends dot head).2.1 rfl
  · constructor
    · intro c head
      cases head
      rcases marker with rfl | rfl <;> decide
    · intro head
      have point : e = dot := Option.some.inj head
      subst point
      exact absurd marker (by unfold Marker; decide)

theorem fraction_head {text rest : Bytes} (fraction : Fraction text) (ends : NoDigit rest) :
    NoDigit (text ++ rest) := by
  rcases fraction with rfl | ⟨ds, digits, rfl⟩
  · exact ends
  · intro c head
    cases head
    decide

/-- A numeral begins with its sign or a digit. -/
theorem whole_head {ds : Bytes} (whole : Whole ds) :
    ∃ d tail, ds = d :: tail ∧ isDigit d = true := by
  rcases whole with rfl | ⟨digits, _⟩
  · exact ⟨zero, [], rfl, by decide⟩
  · cases ds with
    | nil => exact absurd rfl digits.1
    | cons d ds => exact ⟨d, ds, rfl, digits.2 d (by simp)⟩

theorem skip_sign {sign ds : Bytes} (signed : sign = [] ∨ sign = [minus]) (whole : Whole ds)
    (rest : Bytes) : skipSign (· == minus) (sign ++ (ds ++ rest)) = ds ++ rest := by
  rcases signed with rfl | rfl
  · rcases whole_head whole with ⟨d, tail, rfl, digit⟩
    have other : (d == minus) = false := by
      simp only [isDigit] at digit
      grind
    simp [skipSign, other]
  · rfl

/-- `parse_number` of a numeral. -/
theorem parse_number_numeral (numeral : Numeral) {rest : Bytes} (ends : NumberEnds rest) :
    parseNumber (numeral.text ++ rest) =
      if inRange numeral.text then some (.num (strtod numeral.text).1, rest) else none := by
  have power := exponent_head numeral.exponential ends
  have point := fraction_head numeral.fractional power.1
  have spelled : (numeral.text ++ rest).take ((numeral.text ++ rest).length - rest.length) =
      numeral.text := by
    rw [List.length_append, Nat.add_sub_cancel]
    exact List.take_left' rfl
  have scanned : numeral.text ++ rest = numeral.sign ++ (numeral.whole ++
      (numeral.fraction ++ (numeral.exponent ++ rest))) := by
    simp [Numeral.text]
  have value : parseNumber (numeral.text ++ rest) =
      (skipWhole (skipSign (· == minus) (numeral.text ++ rest))).bind fun p =>
        (skipFraction p).bind fun p => (skipExponent p).bind fun p =>
          let text := (numeral.text ++ rest).take ((numeral.text ++ rest).length - p.length)
          if inRange text then some (.num (strtod text).1, p) else none := rfl
  have stop : skipExponent (numeral.exponent ++ rest) = some rest :=
    skip_exponent numeral.exponential ends
  have scan : (skipWhole (skipSign (· == minus) (numeral.text ++ rest))).bind skipFraction =
      some (numeral.exponent ++ rest) := by
    rw [scanned, skip_sign numeral.signed numeral.wholly, skip_whole numeral.wholly point,
      Option.bind_some, skip_fraction numeral.fractional power.1 power.2]
  rw [value, ← Option.bind_assoc, scan, Option.bind_some, stop, Option.bind_some]
  simp only [spelled]

end GridcoreRunner.Json
