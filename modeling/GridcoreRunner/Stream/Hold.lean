import GridcoreRunner.Stream.Emitter
import GridcoreRunner.Json.Seams

/-!
# The hold

A text channel holds an unfinished character back. What it lets go is cut into
pieces that no character runs across, however the bytes came in.
-/

namespace GridcoreRunner.Stream

set_option autoImplicit false

open GridcoreRunner.Json GridcoreRunner.Completion

/-! ## The unfinished tail -/

theorem u8_tail_bounds {text : Bytes} {fuel back : Nat} (some_ : u8TailFrom text fuel back ≠ 0) :
    back ≤ u8TailFrom text fuel back ∧ u8TailFrom text fuel back ≤ text.length ∧
      ¬Continues ((text[text.length - u8TailFrom text fuel back]?).getD 0) := by
  induction fuel generalizing back with
  | zero => exact absurd rfl some_
  | succ fuel induction =>
      simp only [u8TailFrom] at some_ ⊢
      by_cases room : back ≤ text.length
      · rw [if_pos room] at some_ ⊢
        by_cases continuation : (text[text.length - back]?).getD 0 &&& 0xC0 = 0x80
        · rw [if_pos continuation] at some_ ⊢
          have later := induction some_
          exact ⟨by omega, later.2⟩
        · rw [if_neg continuation] at some_ ⊢
          generalize (if (text[text.length - back]?).getD 0 &&& 0xE0 = 0xC0 then 2
            else if (text[text.length - back]?).getD 0 &&& 0xF0 = 0xE0 then 3
            else if (text[text.length - back]?).getD 0 &&& 0xF8 = 0xF0 then 4 else 0) = len
            at some_ ⊢
          by_cases longer : len > back
          · rw [if_pos longer]
            exact ⟨Nat.le_refl _, room,
              fun continues => continuation ((mask_continuation _).mpr continues)⟩
          · rw [if_neg longer] at some_
            exact absurd rfl some_
      · rw [if_neg room] at some_
        exact absurd rfl some_

/-- What is held back begins a character. -/
theorem u8_tail_head {text : Bytes} (some_ : u8IncompleteTail text ≠ 0) :
    ∃ c rest, text.drop (text.length - u8IncompleteTail text) = c :: rest ∧ ¬Continues c := by
  have bounds := u8_tail_bounds some_
  have inside : text.length - u8IncompleteTail text < text.length := by
    have upper := bounds.2.1
    have positive : 0 < u8IncompleteTail text := Nat.pos_of_ne_zero some_
    have same : u8IncompleteTail text = u8TailFrom text 3 1 := rfl
    omega
  refine ⟨text[text.length - u8IncompleteTail text], _, List.drop_eq_getElem_cons inside, ?_⟩
  have head := bounds.2.2
  rw [show u8TailFrom text 3 1 = u8IncompleteTail text from rfl,
    List.getElem?_eq_getElem inside, Option.getD_some] at head
  exact head

/-- The length that the first byte of a character announces. -/
theorem shape_length {c : UInt8} {s : Bytes} (many : 1 < utf8Seq (c :: s)) :
    (if c &&& 0xE0 = 0xC0 then 2 else if c &&& 0xF0 = 0xE0 then 3
      else if c &&& 0xF8 = 0xF0 then 4 else 0) = utf8Seq (c :: s) := by
  have wide : ¬c < 0x80 := by
    intro ascii
    rw [utf8_seq_ascii ascii] at many
    omega
  by_cases two : c &&& 0xE0 = 0xC0
  · have range := (mask_two c).mp two
    rw [utf8_seq_two range.1 range.2] at many ⊢
    rw [if_pos two]
    split_ifs at many ⊢
    · rfl
    · omega
  by_cases three : c &&& 0xF0 = 0xE0
  · have range := (mask_three c).mp three
    rw [utf8_seq_three range.1 range.2] at many ⊢
    rw [if_neg two, if_pos three]
    by_cases ran : Utf8.run (.owes 1 (if c = 0xE0 then 0xA0 else 0x80)
        (if c = 0xED then 0x9F else 0xBF)) (s.take 2) = some .ground
    · rw [if_pos ran]
    · rw [if_neg ran] at many
      omega
  by_cases four : c &&& 0xF8 = 0xF0
  · have range := (mask_four c).mp four
    rw [utf8_seq_four range.1] at many ⊢
    rw [if_neg two, if_neg three, if_pos four]
    by_cases ran : c ≤ 0xF4 ∧ Utf8.run (.owes 2 (if c = 0xF0 then 0x90 else 0x80)
        (if c = 0xF4 then 0x8F else 0xBF)) (s.take 3) = some .ground
    · rw [if_pos ran]
    · rw [if_neg ran] at many
      omega
  · simp only [utf8Seq, wide, two, three, four] at many
    simp at many

theorem u8_tail_walk {front t : Bytes} {c : UInt8} (rest : ∀ d ∈ t, Continues d)
    {fuel back : Nat} (low : 1 ≤ back) (up : back ≤ t.length + 1) (enough : t.length + 1 < back + fuel)
    {s : Bytes} (many : t.length + 1 < utf8Seq (c :: s)) :
    u8TailFrom (front ++ c :: t) fuel back = t.length + 1 := by
  induction fuel generalizing back with
  | zero => omega
  | succ fuel induction =>
      have size : (front ++ c :: t).length = front.length + (t.length + 1) := by simp
      rw [u8TailFrom, if_pos (by omega), size]
      by_cases here : back = t.length + 1
      · have byte : (front ++ c :: t)[front.length + (t.length + 1) - back]? = some c := by
          rw [here, Nat.add_sub_cancel, List.getElem?_append_right (Nat.le_refl _), Nat.sub_self]
          rfl
        have leads : ¬c &&& 0xC0 = 0x80 := by
          intro continuation
          have none_ := utf8_seq_continues ((mask_continuation c).mp continuation) s
          omega
        rw [byte, Option.getD_some, if_neg leads]
        simp only [shape_length (c := c) (s := s) (by omega)]
        rw [if_pos (by omega), here]
      · have inside : front.length + (t.length + 1) - back = front.length + (t.length - back + 1) := by
          omega
        have bound : t.length - back < t.length := by omega
        have byte : (front ++ c :: t)[front.length + (t.length + 1) - back]? =
            some t[t.length - back] := by
          rw [inside, List.getElem?_append_right (by omega), Nat.add_sub_cancel_left,
            List.getElem?_cons_succ, List.getElem?_eq_getElem bound]
        have continuation := (mask_continuation _).mpr (rest _ (List.getElem_mem bound))
        rw [byte, Option.getD_some, if_pos continuation]
        exact induction (by omega) (by omega) (by omega)

theorem utf8_seq_le_four (s : Bytes) : utf8Seq s ≤ 4 := by
  cases s with
  | nil => simp [utf8Seq]
  | cons c s =>
      by_cases many : 1 < utf8Seq (c :: s)
      · rw [← shape_length many]
        split_ifs
        all_goals omega
      · omega

/-- Where a character is cut, its bytes so far are found. -/
theorem u8_tail_cut {a b : Bytes} (cut : Cuts a b) : u8IncompleteTail a ≠ 0 := by
  obtain ⟨front, back, same, some_, spans⟩ := cut
  cases back with
  | nil => exact absurd rfl some_
  | cons c t =>
      have most := utf8_seq_le_four (c :: t ++ b)
      have tails := cut_tail spans
      rw [List.length_cons] at spans
      rw [same, u8IncompleteTail, u8_tail_walk (s := t ++ b) tails.1 (Nat.le_refl _) (by omega)
        (by omega) (by rw [← List.cons_append]; exact spans)]
      omega

/-! ## Letting go -/

/-- No character runs across the pieces, nor out of them, whatever comes next. -/
def Settled (pieces : List Bytes) (held : Bytes) : Prop :=
  NoneCut pieces ∧ ∀ later, ¬Cuts pieces.flatten (held ++ later)

theorem settled_nil : Settled [] [] :=
  ⟨none_cut_nil, fun _ => not_cuts_nil _⟩

theorem cuts_join {x y b : Bytes} (cut : Cuts (x ++ y) b) : Cuts y b ∨ Cuts x (y ++ b) := by
  obtain ⟨front, back, same, some_, spans⟩ := cut
  rcases List.append_eq_append_iff.mp same with ⟨middle, here, there⟩ | ⟨middle, here, there⟩
  · left
    exact ⟨middle, back, there, some_, spans⟩
  · cases middle with
    | nil =>
        left
        exact ⟨[], back, by rw [there]; rfl, some_, spans⟩
    | cons d middle =>
        right
        refine ⟨front, d :: middle, here, List.cons_ne_nil d middle, ?_⟩
        have longer := congrArg List.length there
        rw [List.length_append] at longer
        rw [← List.append_assoc, ← there]
        omega

/-- One more piece of a text comes in; what can no longer be cut goes out. -/
theorem splice_settled {pieces : List Bytes} {held : Bytes} (settled : Settled pieces held)
    (bytes : Bytes) :
    Settled (pieces ++ (splice held bytes).1.toList) (splice held bytes).2 ∧
      (splice held bytes).1.getD [] ++ (splice held bytes).2 = held ++ bytes := by
  have clean : ∀ later, u8IncompleteTail (held ++ bytes) = 0 →
      ¬Cuts (pieces.flatten ++ (held ++ bytes)) later := by
    intro later ended cut
    cases cuts_join cut with
    | inl inner => exact u8_tail_cut inner ended
    | inr outer =>
        rw [List.append_assoc] at outer
        exact settled.2 _ outer
  rw [splice]
  by_cases common : (held.isEmpty && u8IncompleteTail bytes == 0) = true
  · have both := (Bool.and_eq_true _ _).mp common
    have empty : held = [] := List.isEmpty_iff.mp both.1
    have ended : u8IncompleteTail bytes = 0 := by simpa using both.2
    subst empty
    rw [if_pos common]
    constructor
    · constructor
      · exact none_cut_concat settled.1 (settled.2 bytes)
      · intro later
        have outer := clean later ended
        simpa using outer
    · simp
  · rw [if_neg common]
    simp only
    have whole := List.take_append_drop
      ((held ++ bytes).length - u8IncompleteTail (held ++ bytes)) (held ++ bytes)
    by_cases goes : (held ++ bytes).length - u8IncompleteTail (held ++ bytes) > 0
    · rw [if_pos goes]
      simp only [Option.toList_some, Option.getD_some]
      refine ⟨⟨?_, ?_⟩, whole⟩
      · apply none_cut_concat settled.1
        intro cut
        have more := cuts_extend cut
          ((held ++ bytes).drop ((held ++ bytes).length - u8IncompleteTail (held ++ bytes)))
        rw [whole] at more
        exact settled.2 bytes more
      · intro later cut
        rw [List.flatten_append, List.flatten_singleton] at cut
        by_cases ended : u8IncompleteTail (held ++ bytes) = 0
        · rw [ended, Nat.sub_zero, List.take_length, List.drop_length] at cut
          exact clean later ended cut
        · obtain ⟨c, rest, head, begins⟩ := u8_tail_head ended
          rw [head] at cut
          exact begins (cuts_head cut)
    · have none_ : (held ++ bytes).length - u8IncompleteTail (held ++ bytes) = 0 := by omega
      rw [if_neg goes, none_]
      simp only [Option.toList_none, List.append_nil, Option.getD_none, List.drop_zero,
        List.nil_append, and_true]
      refine ⟨settled.1, ?_⟩
      intro later
      rw [List.append_assoc]
      exact settled.2 (bytes ++ later)

end GridcoreRunner.Stream
