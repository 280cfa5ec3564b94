import GridcoreRunner.Json.Escape

/-!
# Pieces of a text written apart

What `sb_esc` writes reads back as the cleaned text. Cleaning is a homomorphism
except where a character is cut: then each of its bytes is replaced by itself.
-/

namespace GridcoreRunner.Json

set_option autoImplicit false

open GridcoreRunner.Utf8

/-! ## One unit -/

def escUnit : Bytes → Bytes
  | [c] =>
      if c < 0x80 then (namedEscape c).getD (if c < 0x20 then controlEscape c else [c])
      else replacement
  | u => u

/-- A short escape is a backslash and the letter the reader knows. -/
theorem named_escape_letter {c : UInt8} {text : Bytes} (found : namedEscape c = some text) :
    c < 0x80 ∧ ∃ e, text = [backslash, e] ∧ e ≠ letterU ∧ unescape e = some c := by
  unfold namedEscape at found
  split_ifs at found with h1 h2 h3 h4 h5 h6 h7
  · cases found
    rw [h1]
    exact ⟨by decide, quote, rfl, by decide, rfl⟩
  · cases found
    rw [h2]
    exact ⟨by decide, backslash, rfl, by decide, rfl⟩
  · cases found
    rw [h3]
    exact ⟨by decide, letterN, rfl, by decide, rfl⟩
  · cases found
    rw [h4]
    exact ⟨by decide, letterR, rfl, by decide, rfl⟩
  · cases found
    rw [h5]
    exact ⟨by decide, letterT, rfl, by decide, rfl⟩
  · cases found
    rw [h6]
    exact ⟨by decide, letterB, rfl, by decide, rfl⟩
  · cases found
    rw [h7]
    exact ⟨by decide, letterF, rfl, by decide, rfl⟩

theorem named_escape_length {c : UInt8} {text : Bytes} (found : namedEscape c = some text) :
    text.length = 2 ∧ c < 0x80 := by
  have letter := named_escape_letter found
  obtain ⟨e, same, -⟩ := letter.2
  rw [same]
  exact ⟨rfl, letter.1⟩

theorem utf8_seq_wide {c : UInt8} {s : Bytes} (wide : 0x80 ≤ c) : utf8Seq (c :: s) ≠ 1 := by
  rcases utf8_seq_lead s wide with ⟨-, zero⟩ | ⟨more, low, up, -, -, reads⟩
  · omega
  · rw [reads]
    split_ifs
    · omega
    · omega

/-- The buffer never fills up. -/
theorem escape_loop_units {cap rounds : Nat} {s out : Bytes} (enough : s.length ≤ rounds)
    (room : out.length + s.length * 6 + 8 ≤ cap) :
    escapeLoop cap rounds s out = out ++ (units s).flatMap escUnit := by
  induction s using by_units generalizing rounds out with
  | nil => cases rounds <;> simp [escapeLoop]
  | cons c s induction =>
      rcases rounds with _ | rounds
      · simp at enough
      · simp only [List.length_cons] at enough room
        rw [escapeLoop, if_pos (by omega), units_cons, List.flatMap_cons]
        by_cases ascii : c < 0x80
        · rw [utf8_seq_ascii ascii] at induction ⊢
          simp only [Nat.max_self, List.drop_succ_cons, List.drop_zero, List.take_succ_cons,
            List.take_zero] at induction ⊢
          have wrote : ∀ text : Bytes, text.length ≤ 6 → escUnit [c] = text →
              escapeLoop cap rounds s (out ++ text) =
                out ++ (escUnit [c] ++ (units s).flatMap escUnit) := by
            intro text short same
            rw [induction (by omega) (by rw [List.length_append]; omega), same, List.append_assoc]
          rcases found : namedEscape c with _ | text
          · by_cases control : c < 0x20
            · simp only [if_pos control]
              exact wrote _ (Nat.le_refl _) (by simp [escUnit, ascii, found, control])
            · simp only [if_neg control, if_pos ascii]
              exact wrote [c] (by simp) (by simp [escUnit, ascii, found, control])
          · have short := (named_escape_length found).1
            exact wrote text (by omega) (by simp [escUnit, ascii, found])
        · have wide : 0x80 ≤ c := by grind
          have found : namedEscape c = none := by
            rcases found : namedEscape c with _ | text
            · rfl
            · exact absurd (named_escape_length found).2 ascii
          have control : ¬c < 0x20 := by grind
          simp only [found, if_neg control, if_neg ascii]
          by_cases none_ : utf8Seq (c :: s) = 0
          · rw [none_] at induction ⊢
            simp only [Nat.max_zero, List.drop_succ_cons, List.drop_zero, List.take_succ_cons,
              List.take_zero] at induction ⊢
            rw [if_pos trivial, induction (by omega) (by
              rw [List.length_append]
              simp only [replacement, List.length_cons, List.length_nil]
              omega)]
            have unit : escUnit [c] = replacement := by simp [escUnit, ascii]
            rw [unit, List.append_assoc]
          · have one := utf8_seq_wide (s := s) wide
            have spec := utf8_seq_spec (show 0 < utf8Seq (c :: s) by omega)
            have length : max 1 (utf8Seq (c :: s)) = utf8Seq (c :: s) := by omega
            rw [length] at induction ⊢
            have bound := spec.1
            rw [List.length_cons] at bound
            rw [if_neg none_, induction (by rw [List.length_drop, List.length_cons]; omega) (by
              rw [List.length_append, List.length_take, List.length_drop, List.length_cons]
              omega)]
            have unit : escUnit ((c :: s).take (utf8Seq (c :: s))) =
                (c :: s).take (utf8Seq (c :: s)) := by
              rcases same : (c :: s).take (utf8Seq (c :: s)) with _ | ⟨d, _ | ⟨e, t⟩⟩
              · rfl
              · have size := congrArg List.length same
                rw [List.length_take, List.length_cons] at size
                simp only [List.length_cons, List.length_nil] at size
                omega
              · rfl
            rw [unit, List.append_assoc]

theorem sb_esc_units (s : Bytes) : sbEsc s = (units s).flatMap escUnit := by
  rw [sbEsc, escape_loop_units (Nat.le_refl _) (by simp), List.nil_append]

/-! ## Reading back -/

theorem decode_unicode (rounds : Nat) (s : Bytes) :
    decodeLoop (rounds + 1) (backslash :: letterU :: s) =
      (readUnicode s).bind fun (cp, s) => (decodeLoop rounds s).map (u8Emit cp ++ ·) := by
  simp only [decodeLoop]
  rw [if_neg (by decide), if_pos trivial, if_pos trivial]

theorem decode_short {e : UInt8} (short : e ≠ letterU) (rounds : Nat) (s : Bytes) :
    decodeLoop (rounds + 1) (backslash :: e :: s) =
      (unescape e).bind fun b => (decodeLoop rounds s).map ([b] ++ ·) := by
  simp only [decodeLoop]
  rw [if_neg (by decide), if_pos trivial, if_neg short]

theorem decode_plain {c : UInt8} (letter : ¬(c = quote ∨ c < 0x20)) (other : c ≠ backslash)
    {s : Bytes} (some_ : 0 < utf8Seq (c :: s)) (rounds : Nat) :
    decodeLoop (rounds + 1) (c :: s) =
      (decodeLoop rounds ((c :: s).drop (utf8Seq (c :: s)))).map
        ((c :: s).take (utf8Seq (c :: s)) ++ ·) := by
  simp only [decodeLoop]
  rw [if_neg letter, if_neg other, if_neg (by omega)]

theorem control_read {c : UInt8} (control : c < 0x20) (rest : Bytes) :
    readUnicode (zero :: zero :: hexLower (c.toNat / 16) :: hexLower (c.toNat % 16) :: rest) =
      some (c.toNat, rest) := by
  have all : ∀ n : Fin 32, hex4 zero zero (hexLower (n.val / 16)) (hexLower (n.val % 16)) =
      some n.val := by
    decide +kernel
  have below : c.toNat < 32 := by
    have low := UInt8.lt_iff_toNat_lt.mp control
    simpa using low
  have here := all ⟨c.toNat, below⟩
  simp only [readUnicode, here, Option.bind_some]
  rw [if_neg (by simp only [isHigh, Bool.and_eq_true, decide_eq_true_eq]; omega),
    if_neg (by simp only [isLow, Bool.and_eq_true, decide_eq_true_eq]; omega)]

/-- An ASCII byte reads back as itself, however it was written. -/
theorem decode_ascii {c : UInt8} (ascii : c < 0x80) (rounds : Nat) (rest : Bytes) :
    decodeLoop (rounds + 1) (escUnit [c] ++ rest) = (decodeLoop rounds rest).map ([c] ++ ·) := by
  rw [escUnit, if_pos ascii]
  cases found : namedEscape c with
  | some text =>
      obtain ⟨e, same, short, reads⟩ := (named_escape_letter found).2
      rw [same, Option.getD_some, List.cons_append, List.cons_append, List.nil_append,
        decode_short short, reads, Option.bind_some]
  | none =>
      by_cases control : c < 0x20
      · have emit : u8Emit c.toNat = [c] := by
          have low := UInt8.lt_iff_toNat_lt.mp ascii
          simp only [UInt8.reduceToNat] at low
          simp [u8Emit, low]
        simp only [Option.getD_none, if_pos control, controlEscape, List.cons_append,
          List.nil_append]
        rw [decode_unicode, control_read control, Option.bind_some]
        simp only [emit, List.cons_append, List.nil_append]
      · have letter : ¬(c = quote ∨ c < 0x20) := by
          intro either
          cases either with
          | inl same =>
              rw [same] at found
              cases found
          | inr below => exact control below
        have other : c ≠ backslash := by
          intro same
          rw [same] at found
          cases found
        have one := utf8_seq_ascii ascii rest
        simp only [Option.getD_none, if_neg control, List.cons_append, List.nil_append]
        rw [decode_plain letter other (by omega), one]
        rfl

theorem decode_unit {u : Bytes} (unit : IsUnit u) (rounds : Nat) (rest : Bytes) :
    decodeLoop (rounds + 1) (escUnit u ++ rest) = (decodeLoop rounds rest).map (shown u ++ ·) := by
  cases unit with
  | stray c wide alone =>
      have ascii : ¬c < 0x80 := by grind
      have seen : shown [c] = replacement := by simp [shown, alone]
      have written : escUnit [c] = replacement := by simp [escUnit, ascii]
      have three : utf8Seq (0xEF :: 0xBF :: 0xBD :: rest) = 3 := by
        rw [utf8_seq_three (by decide) (by decide)]
        rfl
      rw [seen, written, replacement]
      simp only [List.cons_append, List.nil_append]
      rw [decode_plain (by decide) (by decide) (by omega), three]
      rfl
  | character c s whole =>
      by_cases ascii : c < 0x80
      · have alone : s = [] := by
          rw [utf8_seq_ascii ascii, List.length_cons] at whole
          exact List.length_eq_zero_iff.mp (by omega)
        rw [alone]
        have seen : shown [c] = [c] := by simp [shown, utf8_seq_ascii ascii]
        rw [seen]
        exact decode_ascii ascii rounds rest
      · have wide : 0x80 ≤ c := by grind
        have some_ : 0 < utf8Seq (c :: s) := by
          rw [whole]
          simp
        have spec := (utf8_seq_spec some_).2.1 rest
        rw [whole, List.take_length] at spec
        have seen : shown (c :: s) = c :: s := by
          rw [shown, if_pos whole]
        have written : escUnit (c :: s) = c :: s := by
          have one := utf8_seq_wide (s := s) wide
          cases s with
          | nil => simp [whole] at one
          | cons d s => rfl
        have letter : ¬(c = quote ∨ c < 0x20) ∧ c ≠ backslash := by
          simp only [quote, backslash]
          grind
        rw [seen, written]
        rw [List.cons_append] at spec ⊢
        rw [decode_plain letter.1 letter.2 (by rw [spec]; simp), spec, ← List.cons_append,
          List.drop_left, List.take_left]

theorem decode_units {us : List Bytes} (all : ∀ u ∈ us, IsUnit u) {rounds : Nat}
    (enough : us.length < rounds) :
    decodeLoop rounds (us.flatMap escUnit) = some (us.flatMap shown) := by
  induction us generalizing rounds with
  | nil =>
      rcases rounds with _ | rounds
      · simp at enough
      · rfl
  | cons u us induction =>
      rcases rounds with _ | rounds
      · simp at enough
      · simp only [List.length_cons] at enough
        rw [List.flatMap_cons, decode_unit (all u List.mem_cons_self),
          induction (fun v inside => all v (List.mem_cons_of_mem u inside)) (by omega)]
        rfl

theorem esc_unit_length {u : Bytes} (unit : IsUnit u) : 1 ≤ (escUnit u).length := by
  cases unit with
  | stray c wide alone =>
      have ascii : ¬c < 0x80 := by grind
      simp [escUnit, ascii, replacement]
  | character c s whole =>
      cases s with
      | cons d s => exact Nat.succ_le_succ (Nat.zero_le _)
      | nil =>
          rw [escUnit]
          split_ifs with ascii control
          · cases found : namedEscape c with
            | none => simp [controlEscape]
            | some text =>
                have short := (named_escape_length found).1
                simp only [Option.getD_some]
                omega
          · cases found : namedEscape c with
            | none => simp
            | some text =>
                have short := (named_escape_length found).1
                simp only [Option.getD_some]
                omega
          · simp [replacement]

theorem esc_units_length {us : List Bytes} (all : ∀ u ∈ us, IsUnit u) :
    us.length ≤ (us.flatMap escUnit).length := by
  induction us with
  | nil => simp
  | cons u us induction =>
      have here := esc_unit_length (all u List.mem_cons_self)
      have later := induction fun v inside => all v (List.mem_cons_of_mem u inside)
      simp only [List.length_cons, List.flatMap_cons, List.length_append]
      omega

/-- A client reads the cleaned text. -/
theorem decode_sb_esc (s : Bytes) : decodeContent (sbEsc s) = some (cleaned s) := by
  have all := units_unit s
  have enough := esc_units_length all
  rw [decodeContent, sb_esc_units]
  exact decode_units all (by omega)

end GridcoreRunner.Json
