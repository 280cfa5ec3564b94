import GridcoreRunner.Tokenizer.Encode

/-!
# Spaces and markers

A text with a marker for every space is read back by replacing the markers. Cut
into pieces, it is read back from the pieces if and only if no marker is cut: the
pieces have as many markers as the whole.
-/

namespace GridcoreRunner.Tok

set_option autoImplicit false

/-- Markers read as spaces, without a bound on the output. -/
def plain : Bytes → Bytes
  | [] => []
  | [a] => [a]
  | [a, b] => [a, b]
  | a :: b :: c :: s =>
      if a = 0xE2 ∧ b = 0x96 ∧ c = 0x81 then space :: plain s else a :: plain (b :: c :: s)

/-- How many markers a piece has. -/
def marks : Bytes → Nat
  | [] => 0
  | [_] => 0
  | [_, _] => 0
  | a :: b :: c :: s =>
      if a = 0xE2 ∧ b = 0x96 ∧ c = 0x81 then marks s + 1 else marks (b :: c :: s)

theorem plain_marker (s : Bytes) : plain (marker ++ s) = space :: plain s := by
  simp [marker, plain]

theorem marks_marker (s : Bytes) : marks (marker ++ s) = marks s + 1 := by
  simp [marker, marks]

/-- No marker starts here. -/
theorem plain_cons {c : UInt8} {s : Bytes} (other : ¬(c = 0xE2 ∧ [0x96, 0x81] <+: s)) :
    plain (c :: s) = c :: plain s ∧ marks (c :: s) = marks s := by
  rcases s with _ | ⟨a, _ | ⟨b, s⟩⟩
  · exact ⟨rfl, rfl⟩
  · exact ⟨rfl, rfl⟩
  · have here : ¬(c = 0xE2 ∧ a = 0x96 ∧ b = 0x81) := by
      rintro ⟨at_, first, second⟩
      apply other
      rw [first, second]
      exact ⟨at_, s, rfl⟩
    rw [plain, marks, if_neg here, if_neg here]
    exact ⟨rfl, rfl⟩

theorem plain_cons_ne {c : UInt8} (s : Bytes) (other : c ≠ 0xE2) :
    plain (c :: s) = c :: plain s ∧ marks (c :: s) = marks s :=
  plain_cons fun both => other both.1

theorem marker_or_other (c : UInt8) (s : Bytes) :
    (∃ rest, c :: s = marker ++ rest) ∨ ¬(c = 0xE2 ∧ [0x96, 0x81] <+: s) := by
  by_cases here : c = 0xE2 ∧ [0x96, 0x81] <+: s
  · rcases here with ⟨at_, rest, split⟩
    left
    refine ⟨rest, ?_⟩
    rw [at_, ← split]
    rfl
  · exact Or.inr here

/-- Markers and other bytes, from the left. -/
theorem by_markers {motive : Bytes → Prop} (empty : motive [])
    (at_marker : ∀ s, motive s → motive (marker ++ s))
    (other : ∀ c s, ¬(c = 0xE2 ∧ [0x96, 0x81] <+: s) → motive s → motive (c :: s)) (s : Bytes) :
    motive s := by
  induction length_ : s.length using Nat.strong_induction_on generalizing s with
  | _ n ih =>
      cases s with
      | nil => exact empty
      | cons c s =>
          rcases marker_or_other c s with ⟨rest, split⟩ | none_
          · have shorter : rest.length < n := by
              rw [← length_, split, List.length_append, marker]
              simp
            rw [split]
            exact at_marker rest (ih _ shorter rest rfl)
          · exact other c s none_ (ih _ (by rw [← length_, List.length_cons]; omega) s rfl)

theorem plain_length (s : Bytes) : (plain s).length + 2 * marks s = s.length := by
  induction s using by_markers with
  | empty => rfl
  | at_marker s ih =>
      rw [plain_marker, marks_marker, List.length_cons, List.length_append, marker]
      simp only [List.length_cons, List.length_nil]
      omega
  | other c s none_ ih =>
      rw [(plain_cons none_).1, (plain_cons none_).2, List.length_cons, List.length_cons]
      omega

theorem plain_none {s : Bytes} (none_ : marks s = 0) : plain s = s := by
  induction s using by_markers with
  | empty => rfl
  | at_marker s ih =>
      rw [marks_marker] at none_
      omega
  | other c s not_here ih =>
      rw [(plain_cons not_here).2] at none_
      rw [(plain_cons not_here).1, ih none_]

/-- With room for the whole piece `unmark` reads all of it. -/
theorem unmark_plain (room : Nat) (s : Bytes) (enough : s.length ≤ room) : unmark room s = plain s := by
  induction room generalizing s with
  | zero =>
      have empty : s = [] := List.length_eq_zero_iff.mp (Nat.le_zero.mp enough)
      subst empty
      rfl
  | succ room ih =>
      cases s with
      | nil => rfl
      | cons c s =>
          rw [List.length_cons] at enough
          rcases marker_or_other c s with ⟨rest, split⟩ | none_
          · have shorter : rest.length ≤ room := by
              have lengths := congrArg List.length split
              rw [List.length_append, List.length_cons, marker] at lengths
              simp only [List.length_cons, List.length_nil] at lengths
              omega
            have here : (marker ++ rest).take 3 = marker := rfl
            have past : (marker ++ rest).drop 3 = rest := rfl
            rw [unmark, split, plain_marker, if_pos here, past, ih rest shorter]
          · have not_here : ¬(c :: s).take 3 = marker := by
              intro here
              apply none_
              rcases s with _ | ⟨a, _ | ⟨b, s⟩⟩
              · simp [marker] at here
              · simp [marker] at here
              · simp only [marker, List.take_succ_cons, List.take_zero, List.cons.injEq] at here
                rw [here.2.1, here.2.2.1]
                exact ⟨here.1, s, rfl⟩
            rw [unmark, if_neg not_here, (plain_cons none_).1, ih s (by omega)]

/-! ## Marking a text -/

theorem mark_cons (c : UInt8) (s : Bytes) :
    mark (c :: s) = if c = space then marker ++ mark s else c :: mark s := by
  rw [mark, List.flatMap_cons]
  split_ifs <;> rfl

theorem mark_prefix {x s : Bytes} (clean : ∀ c ∈ x, c ∉ marker) (at_ : x <+: mark s) : x <+: s := by
  induction s generalizing x with
  | nil => simpa [mark] using at_
  | cons c s ih =>
      cases x with
      | nil => exact List.nil_prefix
      | cons a x =>
          rw [mark_cons] at at_
          by_cases here : c = space
          · rw [if_pos here, marker, List.cons_append, List.cons_prefix_cons] at at_
            exact absurd (by simp [at_.1, marker]) (clean a (by simp))
          · rw [if_neg here, List.cons_prefix_cons] at at_
            rw [List.cons_prefix_cons]
            exact ⟨at_.1, ih (fun b inside => clean b (List.mem_cons_of_mem _ inside)) at_.2⟩

/-- Bytes that are no part of a marker stand in the text. -/
theorem mark_infix {x s : Bytes} (some_ : x ≠ []) (clean : ∀ c ∈ x, c ∉ marker)
    (inside : x <:+: mark s) : x <:+: s := by
  rcases x with _ | ⟨a, x⟩
  · exact absurd rfl some_
  have a_clean := clean a (by simp)
  induction s with
  | nil => simp [mark] at inside
  | cons c s ih =>
      apply List.infix_cons_iff.mpr
      rw [mark_cons] at inside
      by_cases here : c = space
      · rw [if_pos here] at inside
        simp only [marker, List.cons_append, List.nil_append, List.infix_cons_iff,
          List.cons_prefix_cons] at inside
        simp only [marker, List.mem_cons, List.not_mem_nil, or_false, not_or] at a_clean
        rcases inside with at_ | at_ | at_ | later
        · exact absurd at_.1 a_clean.1
        · exact absurd at_.1 a_clean.2.1
        · exact absurd at_.1 a_clean.2.2
        · exact Or.inr (ih later)
      · rw [if_neg here, List.infix_cons_iff] at inside
        rcases inside with at_ | later
        · left
          rw [List.cons_prefix_cons] at at_ ⊢
          exact ⟨at_.1, mark_prefix (fun b in_x => clean b (List.mem_cons_of_mem _ in_x)) at_.2⟩
        · exact Or.inr (ih later)

theorem mark_continuation {s : Bytes} (at_ : [0x96, 0x81] <+: mark s) : [0x96, 0x81] <+: s := by
  rcases s with _ | ⟨a, s⟩
  · simp [mark] at at_
  rw [mark_cons] at at_
  by_cases here : a = space
  · rw [if_pos here, marker, List.cons_append, List.cons_prefix_cons] at at_
    exact absurd at_.1 (by decide)
  rw [if_neg here, List.cons_prefix_cons] at at_
  rcases s with _ | ⟨b, s⟩
  · simp [mark] at at_
  rw [mark_cons] at at_
  by_cases next : b = space
  · rw [if_pos next, marker, List.cons_append, List.cons_prefix_cons] at at_
    exact absurd at_.2.1 (by decide)
  rw [if_neg next, List.cons_prefix_cons] at at_
  rw [← at_.1, ← at_.2.1]
  exact ⟨s, rfl⟩

theorem plain_mark {text : Bytes} (unmarked : ¬marker <:+: text) :
    plain (mark text) = text ∧ marks (mark text) = text.count space := by
  induction text with
  | nil => exact ⟨rfl, rfl⟩
  | cons c s ih =>
      have tail : ¬marker <:+: s := fun inside => unmarked (List.infix_cons_iff.mpr (Or.inr inside))
      rw [mark_cons]
      by_cases here : c = space
      · rw [if_pos here, plain_marker, marks_marker, (ih tail).1, (ih tail).2, here,
          List.count_cons_self]
        exact ⟨rfl, rfl⟩
      · have none_ : ¬(c = 0xE2 ∧ [0x96, 0x81] <+: mark s) := by
          rintro ⟨at_, next⟩
          apply unmarked
          rcases mark_continuation next with ⟨rest, split⟩
          rw [at_, ← split]
          exact ⟨[], rest, rfl⟩
        rw [if_neg here, (plain_cons none_).1, (plain_cons none_).2, (ih tail).1, (ih tail).2,
          List.count_cons_of_ne here]
        exact ⟨rfl, rfl⟩

/-! ## Pieces -/

/-- Either the cut leaves the markers whole, or one is lost. -/
theorem plain_append (a b : Bytes) :
    (marks (a ++ b) = marks a + marks b ∧ plain (a ++ b) = plain a ++ plain b) ∨
      marks a + marks b < marks (a ++ b) := by
  induction a using by_markers with
  | empty => exact Or.inl ⟨(Nat.zero_add _).symm, rfl⟩
  | at_marker a ih =>
      rw [List.append_assoc, plain_marker, plain_marker, marks_marker, marks_marker]
      rcases ih with ⟨count, text⟩ | more
      · left
        rw [text, List.cons_append]
        exact ⟨by omega, rfl⟩
      · right
        omega
  | other c a none_ ih =>
      rw [List.cons_append, (plain_cons none_).1, (plain_cons none_).2]
      by_cases cut_ : c = 0xE2 ∧ [0x96, 0x81] <+: a ++ b
      · -- the marker runs over the cut
        right
        have skip : ∀ d : Bytes, marks (0x81 :: d) = marks d ∧ marks (0x96 :: 0x81 :: d) = marks d := by
          intro d
          have last := (plain_cons_ne (c := 0x81) d (by decide)).2
          have both := (plain_cons_ne (c := 0x96) (0x81 :: d) (by decide)).2
          exact ⟨last, both.trans last⟩
        rcases cut_ with ⟨at_, rest, split⟩
        have whole : marks (c :: (a ++ b)) = marks rest + 1 := by
          rw [at_, ← split]
          exact marks_marker rest
        rcases a with _ | ⟨x, _ | ⟨y, a⟩⟩
        · rw [List.nil_append] at split
          have count : marks b = marks rest := by
            rw [← split]
            exact (skip rest).2
          simp only [marks]
          omega
        · rw [List.singleton_append, List.cons_append, List.cons.injEq, List.singleton_append] at split
          have count : marks b = marks rest := by
            rw [← split.2]
            exact (skip rest).1
          simp only [marks]
          omega
        · exfalso
          apply none_
          simp only [List.cons_append, List.nil_append, List.cons.injEq] at split
          rw [← split.1, ← split.2.1]
          exact ⟨at_, a, rfl⟩
      · rw [(plain_cons cut_).1, (plain_cons cut_).2]
        rcases ih with ⟨count, text⟩ | more
        · left
          rw [text, List.cons_append]
          exact ⟨count, rfl⟩
        · exact Or.inr more

theorem plain_flatten (pieces : List Bytes) :
    ((pieces.map marks).sum = marks pieces.flatten ∧ pieces.flatMap plain = plain pieces.flatten) ∨
      (pieces.map marks).sum < marks pieces.flatten := by
  induction pieces with
  | nil => exact Or.inl ⟨rfl, rfl⟩
  | cons p pieces ih =>
      rw [List.map_cons, List.sum_cons, List.flatten_cons, List.flatMap_cons]
      rcases plain_append p pieces.flatten with ⟨count, text⟩ | more
      · rcases ih with ⟨rest_count, rest_text⟩ | rest_more
        · left
          rw [rest_text, text, count, rest_count]
          exact ⟨rfl, rfl⟩
        · right
          omega
      · right
        rcases ih with ⟨rest_count, _⟩ | rest_more
        · omega
        · omega

/-- A piece as it is read back: only one that was found has its markers replaced. -/
def readBack (found : Bytes → Bool) (piece : Bytes) : Bytes := if found piece then plain piece else piece

/-- The markers in the pieces that were found. -/
def foundMarks (found : Bytes → Bool) (pieces : List Bytes) : Nat :=
  ((pieces.filter found).map marks).sum

theorem found_marks_cons (found : Bytes → Bool) (p : Bytes) (pieces : List Bytes) :
    foundMarks found (p :: pieces) = (if found p then marks p else 0) + foundMarks found pieces := by
  by_cases here : found p = true
  · simp [foundMarks, here]
  · simp [foundMarks, here]

theorem found_marks_le (found : Bytes → Bool) (pieces : List Bytes) :
    foundMarks found pieces ≤ (pieces.map marks).sum := by
  induction pieces with
  | nil => exact Nat.le_refl 0
  | cons p pieces ih =>
      rw [found_marks_cons, List.map_cons, List.sum_cons]
      split_ifs <;> omega

/-- Markers that were not found are left as they are. -/
theorem read_back_length (found : Bytes → Bool) (pieces : List Bytes) :
    (pieces.flatMap (readBack found)).length + 2 * foundMarks found pieces =
      pieces.flatten.length := by
  induction pieces with
  | nil => rfl
  | cons p pieces ih =>
      rw [List.flatMap_cons, List.length_append, found_marks_cons, List.flatten_cons,
        List.length_append, readBack]
      have here := plain_length p
      split_ifs <;> omega

theorem read_back_plain {found : Bytes → Bool} {pieces : List Bytes}
    (all : foundMarks found pieces = (pieces.map marks).sum) :
    pieces.flatMap (readBack found) = pieces.flatMap plain := by
  induction pieces with
  | nil => rfl
  | cons p pieces ih =>
      have most := found_marks_le found pieces
      rw [found_marks_cons, List.map_cons, List.sum_cons] at all
      rw [List.flatMap_cons, List.flatMap_cons, readBack]
      by_cases here : found p = true
      · rw [if_pos here] at all ⊢
        rw [ih (by omega)]
      · rw [if_neg here] at all ⊢
        rw [ih (by omega), plain_none (by omega)]

/-- Cut into pieces, a marked text is read back if and only if every marker is whole
in a piece that was found. -/
theorem read_back_iff {found : Bytes → Bool} {pieces : List Bytes} {text : Bytes}
    (unmarked : ¬marker <:+: text) (tiles : pieces.flatten = mark text) :
    pieces.flatMap (readBack found) = text ↔ foundMarks found pieces = text.count space := by
  rcases plain_mark unmarked with ⟨whole, count⟩
  have lengths := read_back_length found pieces
  have whole_length := plain_length (mark text)
  rw [whole, count] at whole_length
  have most := found_marks_le found pieces
  rw [tiles] at lengths
  constructor
  · intro same
    rw [same] at lengths
    omega
  · intro all
    rcases plain_flatten pieces with ⟨sum, texts⟩ | more
    · rw [tiles, count] at sum
      rw [read_back_plain (by omega), texts, tiles, whole]
    · rw [tiles, count] at more
      omega

end GridcoreRunner.Tok
