import GridcoreRunner.Vram.RegistryText
import Mathlib.Data.List.Basic

/-!
# The registry line by line

The file is read as its lines one by one. What makes a line an entry is that it has seven fields or
more: the splitter stops at the eighth field, so a line with more of them is read too.
-/

namespace GridcoreRunner.Vram

set_option autoImplicit false

def lines (text : Bytes) : List Bytes := text.splitOn newline

def columns (line : Bytes) : List Bytes := line.splitOn tab

/-- Short, not a comment, and with a positive process id. -/
def Owned (line : Bytes) : Prop :=
  line.length < regLineMax ∧ line.head? ≠ some 35 ∧ 0 < strtol ((columns line).headD [])

instance : DecidablePred Owned := fun _ => inferInstanceAs (Decidable (_ ∧ _ ∧ _))

/-- Seven fields, or eight with the priority. -/
def WellFormed (line : Bytes) : Prop :=
  ((columns line).length = 7 ∨ (columns line).length = 8) ∧ Owned line

instance : DecidablePred WellFormed := fun _ => inferInstanceAs (Decidable (_ ∧ _))

/-- As the splitter counts, which looks no further than the eighth field. -/
def EntryLike (line : Bytes) : Prop := 7 ≤ (columns line).length ∧ Owned line

instance : DecidablePred EntryLike := fun _ => inferInstanceAs (Decidable (_ ∧ _))

/-- The lines that become entries. -/
def readLines (text : Bytes) : List Bytes :=
  ((lines text).filter fun line => (parseLine line).isSome).take regMaxEntries

structure LineLaw (text : Bytes) : Prop where
  entries : parse text = (readLines text).filterMap parseLine
  formed : ∀ line ∈ readLines text, WellFormed line
  others : parse text =
    (((lines text).filter fun line => WellFormed line).filterMap parseLine).take regMaxEntries

/-- No line among the first that count as entries has a ninth field. -/
def Narrow (text : Bytes) : Prop :=
  ∀ line ∈ ((lines text).filter fun line => EntryLike line).take regMaxEntries,
    (columns line).length ≤ 8

/-! ## Pieces -/

theorem split_first (c : UInt8) (text : Bytes) :
    text.splitOn c = text.takeWhile (· != c) ::
      match text.dropWhile (· != c) with
      | [] => []
      | _ :: rest => rest.splitOn c := by
  have whole := List.takeWhile_append_dropWhile (p := (· != c)) (l := text)
  have free : c ∉ text.takeWhile (· != c) := by
    intro inside
    have stays := List.mem_takeWhile_imp inside
    simp at stays
  cases behind : text.dropWhile (· != c) with
  | nil =>
      rw [behind, List.append_nil] at whole
      rw [whole] at free ⊢
      exact List.splitOn_eq_singleton free
  | cons d rest =>
      have cut : d = c := by
        have some_ : text.dropWhile (· != c) ≠ [] := by simp [behind]
        have head := List.head_dropWhile_not (· != c) some_
        simpa [behind] using head
      rw [behind, cut] at whole
      conv_lhs => rw [← whole]
      exact List.splitOn_append_cons_self_of_not_mem free rest

/-- The splitter's fields are the first of the line's. -/
theorem fields_columns (count : Nat) (line : Bytes) :
    fields count line = (columns line).take count := by
  induction count generalizing line with
  | zero => rfl
  | succ count induction =>
      rw [fields, columns, split_first, List.take_succ_cons]
      cases line.dropWhile (· != tab) with
      | nil => rw [List.take_nil]
      | cons d rest => exact congrArg _ (induction rest)

theorem read_entry_some (pid seq procstart since state bytes model : Bytes) (priority : Int32) :
    (readEntry pid seq procstart since state bytes model priority).isSome ↔ 0 < strtol pid := by
  rw [readEntry]
  by_cases owner : 0 < strtol pid
  · rw [if_pos owner]
    exact iff_of_true rfl owner
  · rw [if_neg owner]
    exact iff_of_false Bool.false_ne_true owner

theorem parse_line_iff (line : Bytes) : (parseLine line).isSome = true ↔ EntryLike line := by
  have same := fields_columns 8 line
  rw [parseLine]
  by_cases outside : line = [] ∨ regLineMax ≤ line.length ∨ line.head? = some 35
  · rw [if_pos outside]
    refine iff_of_false Bool.false_ne_true ?_
    rintro ⟨many, short, plain, _⟩
    rcases outside with empty | long | comment
    · rw [empty, columns] at many
      exact absurd many (by decide)
    · omega
    · exact plain comment
  · rw [if_neg outside]
    have inside : line.length < regLineMax ∧ line.head? ≠ some 35 := by
      constructor
      · by_contra long
        exact outside (Or.inr (Or.inl (by omega)))
      · intro comment
        exact outside (Or.inr (Or.inr comment))
    rw [EntryLike, Owned, and_iff_right inside.1, and_iff_right inside.2, same]
    rcases columns line with _ | ⟨a, _ | ⟨b, _ | ⟨c, _ | ⟨d, _ | ⟨e, _ | ⟨f, _ | ⟨g, _ | ⟨h, rest⟩⟩⟩⟩⟩⟩⟩⟩
    case cons.cons.cons.cons.cons.cons.cons.nil => simpa using read_entry_some a b c d e f g 0
    case cons.cons.cons.cons.cons.cons.cons.cons =>
      simpa using read_entry_some a b c d e f g (strtol h).toInt32
    all_goals simp

/-! ## The loop over the lines -/

theorem parse_loop_reads {rounds room : Nat} {text : Bytes} (enough : text.length < rounds) :
    parseLoop rounds room text = ((lines text).filterMap parseLine).take room := by
  induction rounds generalizing room text with
  | zero => omega
  | succ rounds induction =>
      have split := split_first newline text
      rw [parseLoop, lines, split]
      by_cases done : text = [] ∨ room = 0
      · rw [if_pos done]
        rcases done with empty | full
        · rw [empty]
          exact List.take_nil.symm
        · rw [full]
          rfl
      · rw [if_neg done]
        have nonempty : text ≠ [] := fun empty => done (Or.inl empty)
        have positive : room ≠ 0 := fun full => done (Or.inr full)
        have shorter : (text.dropWhile (· != newline)).tail.length < rounds := by
          have bound := List.length_dropWhile_le (· != newline) text
          have some_ := List.length_pos_iff.mpr nonempty
          rw [List.length_tail]
          omega
        have rest (room : Nat) :
            parseLoop rounds room (text.dropWhile (· != newline)).tail =
              ((match text.dropWhile (· != newline) with
                | [] => []
                | _ :: rest => rest.splitOn newline).filterMap parseLine).take room := by
          rw [induction shorter]
          cases text.dropWhile (· != newline) with
          | nil => rfl
          | cons d rest => rfl
        cases read : parseLine (text.takeWhile (· != newline)) with
        | none =>
            rw [List.filterMap_cons_none read]
            exact rest room
        | some entry =>
            obtain ⟨less, rfl⟩ := Nat.exists_eq_succ_of_ne_zero positive
            rw [List.filterMap_cons_some read, List.take_succ_cons]
            exact congrArg _ (rest less)

theorem take_read (room : Nat) (all : List Bytes) :
    (all.filterMap parseLine).take room =
      ((all.filter fun line => (parseLine line).isSome).take room).filterMap parseLine := by
  induction all generalizing room with
  | nil => simp
  | cons line all induction =>
      cases read : parseLine line with
      | none =>
          rw [List.filterMap_cons_none read, List.filter_cons_of_neg (by simp [read])]
          exact induction room
      | some entry =>
          rw [List.filterMap_cons_some read, List.filter_cons_of_pos (by simp [read])]
          cases room with
          | zero => rfl
          | succ room =>
              rw [List.take_succ_cons, List.take_succ_cons, List.filterMap_cons_some read,
                induction room]

/-- Nothing but well-formed lines in front, so the others may as well be dropped first. -/
theorem take_filter {room : Nat} {all : List Bytes} {strict loose : Bytes → Bool}
    (weaker : ∀ line, strict line = true → loose line = true)
    (formed : ∀ line ∈ (all.filter loose).take room, strict line = true) :
    (all.filter loose).take room = (all.filter strict).take room := by
  induction all generalizing room with
  | nil => rfl
  | cons line all induction =>
      cases room with
      | zero => rfl
      | succ room =>
          by_cases counts : loose line = true
          · rw [List.filter_cons_of_pos counts, List.take_succ_cons] at formed ⊢
            have here := formed line List.mem_cons_self
            rw [List.filter_cons_of_pos here, List.take_succ_cons]
            congr 1
            apply induction
            intro other inside
            exact formed other (List.mem_cons_of_mem line inside)
          · have skipped : ¬strict line = true := fun yes => counts (weaker line yes)
            rw [List.filter_cons_of_neg counts] at formed ⊢
            rw [List.filter_cons_of_neg skipped]
            exact induction formed

theorem read_lines_eq (text : Bytes) :
    readLines text = ((lines text).filter fun line => EntryLike line).take regMaxEntries := by
  have same : (fun line => (parseLine line).isSome) = fun line => decide (EntryLike line) := by
    funext line
    exact Bool.eq_iff_iff.mpr ((parse_line_iff line).trans decide_eq_true_iff.symm)
  rw [readLines, same]

theorem parse_reads {text : Bytes} (free : 0 ∉ text) :
    parse text = ((lines text).filterMap parseLine).take regMaxEntries := by
  have whole : cString text = text := by
    apply List.takeWhile_eq_self_iff.mpr
    intro c inside
    simpa using fun zero : c = 0 => free (zero ▸ inside)
  rw [parse, whole]
  exact parse_loop_reads (Nat.lt_succ_self _)

theorem formed_entry_like {line : Bytes} (formed : WellFormed line) : EntryLike line := by
  obtain ⟨count, owned⟩ := formed
  exact ⟨by omega, owned⟩

theorem formed_iff_narrow (text : Bytes) :
    (∀ line ∈ readLines text, WellFormed line) ↔ Narrow text := by
  rw [read_lines_eq, Narrow]
  apply forall₂_congr
  intro line inside
  have like : EntryLike line := by
    have kept := List.of_mem_filter (List.mem_of_mem_take inside)
    exact of_decide_eq_true kept
  constructor
  · rintro ⟨count, _⟩
    omega
  · intro narrow
    have many := like.1
    exact ⟨by omega, like.2⟩

theorem line_law_iff {text : Bytes} (free : 0 ∉ text) : LineLaw text ↔ Narrow text := by
  constructor
  · intro law
    exact (formed_iff_narrow text).mp law.formed
  · intro narrow
    have formed := (formed_iff_narrow text).mpr narrow
    have entries : parse text = (readLines text).filterMap parseLine := by
      rw [parse_reads free, take_read]
      rfl
    refine ⟨entries, formed, ?_⟩
    have kept : readLines text =
        ((lines text).filter fun line => WellFormed line).take regMaxEntries := by
      rw [read_lines_eq] at formed ⊢
      apply take_filter
      · intro line strict
        exact decide_eq_true (formed_entry_like (of_decide_eq_true strict))
      · intro line inside
        exact decide_eq_true (formed line inside)
    have filtered : ((lines text).filter fun line => WellFormed line).filter
        (fun line => (parseLine line).isSome) =
          (lines text).filter fun line => WellFormed line := by
      apply List.filter_eq_self.mpr
      intro line inside
      have kept := List.of_mem_filter inside
      have strict : WellFormed line := of_decide_eq_true kept
      exact (parse_line_iff line).mpr (formed_entry_like strict)
    rw [entries, kept, take_read, filtered]

/-- What was written is read back; and in any file exactly the well-formed lines are entries, as
long as no line that counts has a ninth field. -/
theorem registry_round_trip (entries : List RegEntry) (text : Bytes) (free : 0 ∉ text) :
    ((∀ e ∈ entries, e.Fine) → entries.length ≤ regMaxEntries →
        parse (serialise entries) = entries) ∧
      (LineLaw text ↔ Narrow text) :=
  ⟨fun fine fits => parse_serialise fine fits, line_law_iff free⟩

def smallEntry : RegEntry where
  pid := 7
  seq := 1
  procstart := 0
  since := 0
  state := .committed
  bytes := 64
  model := [0x6d]
  priority := -1

/-- A comment, a line of eight fields, and an `x`. -/
def mixedText : Bytes :=
  [0x23, newline] ++
    [0x31, tab, 0x31, tab, 0x30, tab, 0x30, tab, 0x50, tab, 0x35, tab, 0x6d, tab, 0x30, newline] ++
      [0x78, newline]

theorem small_registry_read :
    parse (serialise [smallEntry]) = [smallEntry] ∧ (parse mixedText).length = 1 ∧
      LineLaw mixedText := by
  have fine : smallEntry.Fine := ⟨by decide, by decide, by decide +kernel⟩
  have both := registry_round_trip [smallEntry] mixedText (by decide)
  refine ⟨both.1 ?_ (by decide), by decide, both.2.mpr ?_⟩
  · intro e inside
    rw [List.mem_singleton.mp inside]
    exact fine
  · unfold Narrow
    decide

/-- `1`, six more fields, a priority, and an `x` behind it. -/
def nineFields : Bytes :=
  [0x31, tab, 0x31, tab, 0x30, tab, 0x30, tab, 0x50, tab, 0x35, tab, 0x6d, tab, 0x30, tab, 0x78,
    newline]

theorem ninth_field_read : (parse nineFields).length = 1 ∧ ¬LineLaw nineFields := by
  have read : (parse nineFields).length = 1 := by decide
  refine ⟨read, ?_⟩
  intro law
  have dropped : (lines nineFields).filter (fun line => WellFormed line) = [] := by decide
  rw [law.others, dropped] at read
  cases read

end GridcoreRunner.Vram
