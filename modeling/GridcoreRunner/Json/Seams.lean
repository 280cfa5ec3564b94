import GridcoreRunner.Json.EscapePieces

/-!
# Seams

Pieces of a text are cleaned apart. What they show together is the cleaned text
exactly when no seam runs through a character: each byte of a character that was
cut is replaced by itself.
-/

namespace GridcoreRunner.Json

set_option autoImplicit false

open GridcoreRunner.Utf8

/-- A character at the front is not changed by what comes behind it. -/
theorem utf8_seq_append {c : UInt8} {s : Bytes} (some_ : 0 < utf8Seq (c :: s)) (b : Bytes) :
    utf8Seq (c :: s ++ b) = utf8Seq (c :: s) := by
  have spec := (utf8_seq_spec some_).2.1 ((c :: s).drop (utf8Seq (c :: s)) ++ b)
  rw [← List.append_assoc, List.take_append_drop] at spec
  exact spec

/-- A character that begins in `a` ends in `b`. -/
def Cuts (a b : Bytes) : Prop :=
  ∃ front back, a = front ++ back ∧ back ≠ [] ∧ back.length < utf8Seq (back ++ b)

theorem cuts_prepend {a b : Bytes} (more : Bytes) (cut : Cuts a b) : Cuts (more ++ a) b := by
  obtain ⟨front, back, same, some_, spans⟩ := cut
  exact ⟨more ++ front, back, by rw [same, List.append_assoc], some_, spans⟩

theorem cuts_extend {a b : Bytes} (cut : Cuts a b) (more : Bytes) : Cuts a (b ++ more) := by
  obtain ⟨front, back, same, some_, spans⟩ := cut
  cases back with
  | nil => exact absurd rfl some_
  | cons c t =>
      refine ⟨front, c :: t, same, some_, ?_⟩
      rw [List.cons_append] at spans
      rw [← List.append_assoc, List.cons_append, utf8_seq_append (by omega)]
      exact spans

theorem not_cuts_nil (b : Bytes) : ¬Cuts [] b := by
  rintro ⟨front, back, same, some_, -⟩
  have both := List.append_eq_nil_iff.mp same.symm
  exact some_ both.2

/-- The bytes behind the seam go on with the character. -/
theorem cut_tail {c : UInt8} {t b : Bytes} (spans : (c :: t).length < utf8Seq (c :: t ++ b)) :
    (∀ d ∈ t, Continues d) ∧
      ∀ d ∈ b.take (utf8Seq (c :: t ++ b) - (c :: t).length), Continues d := by
  have some_ : 0 < utf8Seq (c :: (t ++ b)) := by
    rw [← List.cons_append]
    omega
  have tail := (utf8_seq_spec some_).2.2
  rw [← List.cons_append] at tail
  have split : ((c :: t ++ b).take (utf8Seq (c :: t ++ b))).tail =
      t ++ b.take (utf8Seq (c :: t ++ b) - (c :: t).length) := by
    rw [List.take_append, List.take_of_length_le (Nat.le_of_lt spans)]
    rfl
  rw [split] at tail
  constructor
  · intro d inside
    exact tail d (List.mem_append_left _ inside)
  · intro d inside
    exact tail d (List.mem_append_right _ inside)

theorem cuts_head {a b : Bytes} {c : UInt8} (cut : Cuts a (c :: b)) : Continues c := by
  obtain ⟨front, back, -, some_, spans⟩ := cut
  cases back with
  | nil => exact absurd rfl some_
  | cons d t =>
      apply (cut_tail spans).2 c
      have room : 0 < utf8Seq (d :: t ++ c :: b) - (d :: t).length := by omega
      obtain ⟨n, same⟩ := Nat.exists_eq_succ_of_ne_zero (Nat.ne_of_gt room)
      rw [same, List.take_succ_cons]
      exact List.mem_cons_self

theorem continues_not_cuts {a : Bytes} (all : ∀ c ∈ a, Continues c) (b : Bytes) : ¬Cuts a b := by
  rintro ⟨front, back, same, some_, spans⟩
  cases back with
  | nil => exact some_ rfl
  | cons c t =>
      have continues : Continues c := by
        apply all
        rw [same]
        exact List.mem_append_right _ List.mem_cons_self
      rw [List.cons_append, utf8_seq_continues continues] at spans
      omega

theorem not_cuts_empty (a : Bytes) : ¬Cuts a [] := by
  rintro ⟨front, back, -, some_, spans⟩
  cases back with
  | nil => exact some_ rfl
  | cons c t =>
      rw [List.append_nil] at spans
      have room := (utf8_seq_spec (c := c) (s := t) (by omega)).1
      omega

theorem cuts_split {a b c : Bytes} (cut : Cuts a (b ++ c)) : Cuts a b ∨ Cuts (a ++ b) c := by
  obtain ⟨front, back, same, some_, spans⟩ := cut
  by_cases inside : utf8Seq (back ++ (b ++ c)) ≤ (back ++ b).length
  · left
    refine ⟨front, back, same, some_, ?_⟩
    cases back with
    | nil => exact absurd rfl some_
    | cons d t =>
        have spec := (utf8_seq_spec (c := d) (s := t ++ (b ++ c)) (by
          rw [← List.cons_append]
          omega)).2.1 ((d :: t ++ b).drop (utf8Seq (d :: t ++ (b ++ c))))
        rw [← List.cons_append, ← List.append_assoc] at spec
        rw [← List.append_assoc] at inside spans
        rw [List.take_append_of_le_length inside, List.take_append_drop] at spec
        rw [spec]
        exact spans
  · right
    refine ⟨front, back ++ b, by rw [same, List.append_assoc], ?_, ?_⟩
    · intro empty
      exact some_ (List.append_eq_nil_iff.mp empty).1
    · rw [List.append_assoc]
      omega

/-! ## A seam between characters -/

theorem utf8_seq_uncut {c : UInt8} {s b : Bytes} (whole : ¬Cuts (c :: s) b) :
    utf8Seq (c :: s ++ b) = utf8Seq (c :: s) := by
  by_cases some_ : 0 < utf8Seq (c :: s)
  · exact utf8_seq_append some_ b
  · by_cases here : 0 < utf8Seq (c :: (s ++ b))
    · have inside : utf8Seq (c :: (s ++ b)) ≤ (c :: s).length := by
        by_contra beyond
        apply whole
        exact ⟨[], c :: s, rfl, List.cons_ne_nil c s, by rw [List.cons_append]; omega⟩
      have spec := (utf8_seq_spec here).2.1 ((c :: s).drop (utf8Seq (c :: (s ++ b))))
      rw [← List.cons_append] at spec inside
      rw [List.take_append_of_le_length inside, List.take_append_drop] at spec
      exact spec.symm
    · rw [List.cons_append]
      omega

theorem units_append {a b : Bytes} (whole : ¬Cuts a b) : units (a ++ b) = units a ++ units b := by
  induction a using by_units with
  | nil => rfl
  | cons c s induction =>
      have same := utf8_seq_uncut whole
      have inside : max 1 (utf8Seq (c :: s)) ≤ (c :: s).length := by
        by_cases some_ : 0 < utf8Seq (c :: s)
        · have spec := (utf8_seq_spec some_).1
          omega
        · simp only [List.length_cons]
          omega
      have later : ¬Cuts ((c :: s).drop (max 1 (utf8Seq (c :: s)))) b := by
        intro cut
        apply whole
        have more := cuts_prepend ((c :: s).take (max 1 (utf8Seq (c :: s)))) cut
        rw [List.take_append_drop] at more
        exact more
      rw [units_cons, List.cons_append, units_cons, ← List.cons_append, same,
        List.take_append_of_le_length inside, List.drop_append_of_le_length inside,
        induction later, List.cons_append]

theorem cleaned_append {a b : Bytes} (whole : ¬Cuts a b) :
    cleaned (a ++ b) = cleaned a ++ cleaned b := by
  rw [cleaned, units_append whole, List.flatMap_append]
  rfl

/-! ## A seam inside a character -/

@[simp] theorem cleaned_nil : cleaned [] = [] := rfl

theorem cleaned_cons (c : UInt8) (s : Bytes) :
    cleaned (c :: s) = shown ((c :: s).take (max 1 (utf8Seq (c :: s)))) ++
      cleaned ((c :: s).drop (max 1 (utf8Seq (c :: s)))) := by
  rw [cleaned, units_cons, List.flatMap_cons]
  rfl

/-- A byte that begins no character is replaced alone. -/
theorem cleaned_stray {c : UInt8} {s : Bytes} (wide : 0x80 ≤ c) (stray : utf8Seq (c :: s) = 0) :
    cleaned (c :: s) = replacement ++ cleaned s := by
  rw [cleaned_cons, stray]
  simp [shown, utf8_seq_single wide]

theorem cleaned_continues {s : Bytes} (all : ∀ c ∈ s, Continues c) :
    (cleaned s).length = 3 * s.length := by
  induction s with
  | nil => rfl
  | cons c s induction =>
      have here := all c List.mem_cons_self
      have later := induction fun d inside => all d (List.mem_cons_of_mem c inside)
      rw [cleaned_stray here.1 (utf8_seq_continues here s), List.length_append, later,
        List.length_cons]
      simp only [replacement, List.length_cons, List.length_nil]
      omega

theorem cleaned_character {c : UInt8} {s : Bytes} (some_ : 0 < utf8Seq (c :: s)) :
    (cleaned (c :: s)).length =
      utf8Seq (c :: s) + (cleaned ((c :: s).drop (utf8Seq (c :: s)))).length := by
  have length : max 1 (utf8Seq (c :: s)) = utf8Seq (c :: s) := by omega
  have spec := utf8_seq_spec some_
  have alone := spec.2.1 []
  rw [List.append_nil] at alone
  have size : ((c :: s).take (utf8Seq (c :: s))).length = utf8Seq (c :: s) := by
    rw [List.length_take]
    omega
  rw [cleaned_cons, length, List.length_append, shown, alone, if_pos size.symm, size]

/-- Where a character is cut, the two sides show more than the whole. -/
theorem cut_character {c : UInt8} {t b : Bytes}
    (spans : (c :: t).length < utf8Seq (c :: t ++ b)) :
    (cleaned (c :: t ++ b)).length < (cleaned (c :: t)).length + (cleaned b).length := by
  have wide : 0x80 ≤ c := by
    by_contra ascii
    rw [List.cons_append, utf8_seq_ascii (by grind), List.length_cons] at spans
    omega
  have stray : utf8Seq (c :: t) = 0 := by
    by_contra some_
    have same := utf8_seq_append (c := c) (s := t) (by omega) b
    have room := (utf8_seq_spec (c := c) (s := t) (by omega)).1
    omega
  have tails := cut_tail spans
  have room := (utf8_seq_spec (c := c) (s := t ++ b) (by rw [← List.cons_append]; omega)).1
  rw [← List.cons_append, List.length_append] at room
  have left : (cleaned (c :: t)).length = 3 * (c :: t).length := by
    rw [cleaned_stray wide stray, List.length_append, cleaned_continues tails.1, List.length_cons]
    simp only [replacement, List.length_cons, List.length_nil]
    omega
  have right : (cleaned b).length = 3 * (utf8Seq (c :: t ++ b) - (c :: t).length) +
      (cleaned (b.drop (utf8Seq (c :: t ++ b) - (c :: t).length))).length := by
    have split := cleaned_append (continues_not_cuts tails.2
      (b.drop (utf8Seq (c :: t ++ b) - (c :: t).length)))
    rw [List.take_append_drop] at split
    rw [split, List.length_append, cleaned_continues tails.2, List.length_take]
    omega
  have whole : (cleaned (c :: t ++ b)).length = utf8Seq (c :: t ++ b) +
      (cleaned (b.drop (utf8Seq (c :: t ++ b) - (c :: t).length))).length := by
    have character := cleaned_character (c := c) (s := t ++ b) (by rw [← List.cons_append]; omega)
    rw [← List.cons_append, List.drop_append, List.drop_eq_nil_of_le (Nat.le_of_lt spans),
      List.nil_append] at character
    exact character
  omega

theorem cleaned_cut {a b : Bytes} (cut : Cuts a b) :
    (cleaned (a ++ b)).length < (cleaned a).length + (cleaned b).length := by
  obtain ⟨front, back, same, some_, spans⟩ := cut
  cases back with
  | nil => exact absurd rfl some_
  | cons c t =>
      have begins : ¬Continues c := by
        intro continues
        rw [List.cons_append, utf8_seq_continues continues] at spans
        omega
      have before : ∀ rest, cleaned (front ++ c :: rest) = cleaned front ++ cleaned (c :: rest) :=
        fun rest => cleaned_append fun inner => begins (cuts_head inner)
      have here := cut_character spans
      rw [same, List.append_assoc, List.cons_append, before, before, List.length_append,
        List.length_append]
      rw [List.cons_append] at here
      omega

theorem cleaned_le (a b : Bytes) :
    (cleaned (a ++ b)).length ≤ (cleaned a).length + (cleaned b).length := by
  by_cases cut : Cuts a b
  · exact Nat.le_of_lt (cleaned_cut cut)
  · rw [cleaned_append cut, List.length_append]

/-! ## All seams -/

/-- No seam between two of the pieces runs through a character. -/
def NoneCut (pieces : List Bytes) : Prop :=
  ∀ front back, pieces = front ++ back → ¬Cuts front.flatten back.flatten

theorem none_cut_cons {piece : Bytes} {pieces : List Bytes} :
    NoneCut (piece :: pieces) ↔ ¬Cuts piece pieces.flatten ∧ NoneCut pieces := by
  constructor
  · intro none_
    constructor
    · have here := none_ [piece] pieces rfl
      rw [List.flatten_singleton] at here
      exact here
    · intro front back same cut
      apply none_ (piece :: front) back (by rw [same, List.cons_append])
      rw [List.flatten_cons]
      exact cuts_prepend piece cut
  · intro both front back same
    cases front with
    | nil => exact not_cuts_nil _
    | cons first front =>
        rw [List.cons_append, List.cons.injEq] at same
        rw [← same.1]
        intro cut
        have spare := both.2 front back same.2
        rw [List.flatten_cons] at cut
        obtain ⟨before, within, split, some_, spans⟩ := cut
        rcases List.append_eq_append_iff.mp split with ⟨middle, here, there⟩ | ⟨middle, here, there⟩
        · exact spare ⟨middle, within, there, some_, spans⟩
        · cases middle with
          | nil =>
              rw [List.nil_append] at there
              exact spare ⟨[], within, there.symm, some_, spans⟩
          | cons d middle =>
              apply both.1
              refine ⟨before, d :: middle, here, List.cons_ne_nil d middle, ?_⟩
              rw [same.2, List.flatten_append, ← List.append_assoc, ← there]
              have longer := congrArg List.length there
              rw [List.length_append] at longer
              omega

theorem none_cut_nil : NoneCut [] := by
  intro front back same
  have both := List.append_eq_nil_iff.mp same.symm
  rw [both.1]
  exact not_cuts_nil _

theorem none_cut_concat {pieces : List Bytes} {piece : Bytes} (none_ : NoneCut pieces)
    (whole : ¬Cuts pieces.flatten piece) : NoneCut (pieces ++ [piece]) := by
  intro front back same cut
  rcases List.append_eq_append_iff.mp same with ⟨middle, here, there⟩ | ⟨middle, here, there⟩
  · cases middle with
    | nil =>
        rw [List.append_nil] at here
        rw [List.nil_append] at there
        rw [here, ← there, List.flatten_singleton] at cut
        exact whole cut
    | cons first middle =>
        rw [List.cons_append, List.cons.injEq] at there
        have both := List.append_eq_nil_iff.mp there.2.symm
        rw [both.2] at cut
        exact not_cuts_empty _ cut
  · rw [there, List.flatten_append, List.flatten_singleton] at cut
    cases cuts_split cut with
    | inl before => exact none_ front middle here before
    | inr here' =>
        rw [← List.flatten_append, ← here] at here'
        exact whole here'

theorem none_cut_infix {front pieces back : List Bytes} (none_ : NoneCut (front ++ pieces ++ back)) :
    NoneCut pieces := by
  intro first second same cut
  apply none_ (front ++ first) (second ++ back)
  · rw [same, List.append_assoc, List.append_assoc, List.append_assoc]
  · rw [List.flatten_append, List.flatten_append]
    exact cuts_extend (cuts_prepend _ cut) _

theorem cleaned_pieces_le (pieces : List Bytes) :
    (cleaned pieces.flatten).length ≤ (pieces.flatMap cleaned).length := by
  induction pieces with
  | nil => exact Nat.le_refl _
  | cons piece pieces induction =>
      have here := cleaned_le piece pieces.flatten
      rw [List.flatten_cons, List.flatMap_cons, List.length_append]
      omega

/-- The pieces show the whole text exactly when no character is cut. -/
theorem cleaned_pieces (pieces : List Bytes) :
    pieces.flatMap cleaned = cleaned pieces.flatten ↔ NoneCut pieces := by
  induction pieces with
  | nil =>
      constructor
      · intro _
        exact none_cut_nil
      · intro _
        rfl
  | cons piece pieces induction =>
      rw [none_cut_cons, List.flatMap_cons, List.flatten_cons, ← induction]
      constructor
      · intro same
        have whole : ¬Cuts piece pieces.flatten := by
          intro cut
          have shorter := cleaned_cut cut
          have rest := cleaned_pieces_le pieces
          have sizes := congrArg List.length same
          rw [List.length_append] at sizes
          omega
        rw [cleaned_append whole] at same
        exact ⟨whole, List.append_cancel_left same⟩
      · intro both
        rw [cleaned_append both.1, both.2]

end GridcoreRunner.Json
