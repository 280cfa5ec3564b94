import GridcoreRunner.Tokenizer.ByteLevel
import GridcoreRunner.Tokenizer.SplitCursor

/-!
# Pre-tokens cut the text

The loop of `bpe_encode_text` over the code points and their offsets. Every splitter ends behind
where it begins and inside the text, but for one place of afmoe: a combining mark that may lead a
run of letters and does not. There the loop's guard takes the one code point.
-/

namespace GridcoreRunner.Tok

set_option autoImplicit false

/-- A mark outside of the isolated scripts, in front of what no run of letters begins with. -/
def loneMark : List Nat → Bool
  | c :: d :: _ => cpMark c && !cpAfmoeCjk c && !afmoeBody d
  | _ => false

def stalls (pre : Pre) (s : List Nat) : Bool := pre == .afmoe && loneMark s

/-- A round of the loop: its code point, its bytes, the mapped word, and whether the guard was
needed. -/
structure PreToken where
  first : Nat
  span : Span
  word : Bytes
  stalled : Bool

/-- The bytes of a pre-token through `b2u`, into a buffer of `room` bytes. -/
def mapWord (room : Nat) : Bytes → Bytes → Option Bytes
  | word, [] => some word
  | word, b :: text =>
      if word.length + (u8Encode (b2u b)).length ≤ room then
        mapWord room (word ++ u8Encode (b2u b)) text
      else none

def pieceLoop (pre : Pre) (text : Bytes) (cp off : List Nat) : Nat → Nat → Option (List PreToken)
  | 0, i => if i < cp.length then none else some []
  | rounds + 1, i =>
      if i < cp.length then
        (Cursor.splitNext pre cp cp.length i).bind fun stop =>
          let next := if stop ≤ i then i + 1 else stop
          (off[i]?).bind fun b0 =>
            (off[next]?).bind fun b1 =>
              (mapWord (text.length * 2 + 8) [] (slice text (b0, b1 - b0))).bind fun word =>
                (pieceLoop pre text cp off rounds next).map
                  (⟨i, (b0, b1 - b0), word, stop ≤ i⟩ :: ·)
      else some []

def codePoints (text : Bytes) : List Nat := (characters text).map u8Decode

def offsets (text : Bytes) : List Nat := (cut text).map Prod.fst ++ [text.length]

/-- The pre-tokens of `bpe_encode_text`, in as many rounds as there are code points. -/
def bpePartition (pre : Pre) (text : Bytes) : Option (List PreToken) :=
  pieceLoop pre text (codePoints text) (offsets text) (codePoints text).length 0

/-! ## Progress -/

theorem smollm_bounds (c : Nat) (s : List Nat) :
    0 < smollmSplitNext (c :: s) ∧ smollmSplitNext (c :: s) ≤ (c :: s).length := by
  rw [smollmSplitNext]
  by_cases digit : (c :: s).head?.any cpDigit = true
  · rw [if_pos digit, List.length_cons]
    omega
  · have plain : (!cpDigit c) = true := by simpa using digit
    have shorter : ((c :: s).takeWhile fun c => !cpDigit c).length ≤ (c :: s).length :=
      scan_run_le _ _
    rw [if_neg digit]
    rw [List.takeWhile_cons_of_pos (p := fun c => !cpDigit c) plain] at shorter ⊢
    have bounds := gpt2_bounds c (s.takeWhile fun c => !cpDigit c)
    exact ⟨bounds.1, Nat.le_trans bounds.2 shorter⟩

theorem space_tail_solid {joins : Nat → Bool} {c : Nat} {s : List Nat}
    (solid : cpSpace c = false) : spaceTail joins (c :: s) = 0 := by
  have nothing : scanRun cpSpace (c :: s) = 0 := by
    rw [scan_run_cons, solid]
    rfl
  simp [spaceTail, nothing, lastWhere]

theorem space_tail_bound (joins : Nat → Bool) (c : Nat) (s : List Nat) :
    spaceTail joins (c :: s) ≤ (c :: s).length := by
  by_cases space : cpSpace c = true
  · exact (space_tail_le space).2
  · rw [space_tail_solid (Bool.eq_false_iff.mpr space)]
    exact Nat.zero_le _

theorem mark_solid {c : Nat} {s : List Nat} (plain : cpMark c = false) :
    loneMark (c :: s) = false := by
  cases s with
  | nil => rfl
  | cons d s => rw [loneMark, plain, Bool.false_and, Bool.false_and]

theorem mark_high {c : Nat} (mark : cpMark c = true) : 0x300 ≤ c := by
  obtain ⟨low, _⟩ := mark_range mark
  exact low

/-- What begins neither a run of letters nor one of punctuation is whitespace or a mark. -/
theorem mark_of_rest {c : Nat} (digit : cpDigit c = false) (letter : cpLetter c = false)
    (symbol : cpPunctSym c = false) (space : cpSpace c = false) : cpMark c = true := by
  rw [cpPunctSym, cpOther, space, letter, digit] at symbol
  simpa using symbol

/-- afmoe ends inside the text, and does not move exactly at a lone mark. -/
theorem afmoe_bounds (c : Nat) (s : List Nat) :
    afmoeSplitNext (c :: s) ≤ (c :: s).length ∧
      (afmoeSplitNext (c :: s) = 0 ↔ loneMark (c :: s) = true) := by
  have moves {n : Nat} (least : n ≤ (c :: s).length) (some_ : 0 < n)
      (plain : loneMark (c :: s) = false) :
      n ≤ (c :: s).length ∧ (n = 0 ↔ loneMark (c :: s) = true) := by
    rw [plain]
    exact ⟨least, iff_of_false (by omega) Bool.false_ne_true⟩
  rw [afmoeSplitNext]
  by_cases digit : (c :: s).head?.any cpDigit = true
  · have some_ := scan_run_pos digit
    have all := scan_run_le cpDigit (c :: s)
    have plain : cpMark c = false := by
      by_contra mark
      rw [List.head?_cons, Option.any_some, mark_not_digit (Bool.not_eq_false _ ▸ mark)] at digit
      cases digit
    rw [if_pos digit]
    simp only
    apply moves
    · split_ifs <;> omega
    · split_ifs <;> omega
    · exact mark_solid plain
  rw [if_neg digit]
  by_cases cjk : (c :: s).head?.any cpAfmoeCjk = true
  · have isolated_ : cpAfmoeCjk c = true := cjk
    rw [if_pos cjk]
    apply moves (scan_run_le _ _) (scan_run_pos cjk)
    cases s with
    | nil => rfl
    | cons d s => rw [loneMark, isolated_, Bool.not_true, Bool.and_false, Bool.false_and]
  rw [if_neg cjk]
  by_cases punct_ : (c :: s).head?.any cpAsciiPunct = true ∧
      (c :: s).tail.head?.any asciiLetter = true
  · have all := scan_run_le asciiLetter s
    have plain : cpMark c = false := by
      by_contra mark
      have high := mark_high (Bool.not_eq_false _ ▸ mark)
      have low := punct_.1
      simp only [List.head?_cons, Option.any_some, cpAsciiPunct, Bool.or_eq_true, within_iff] at low
      omega
    rw [if_pos punct_, List.tail_cons]
    apply moves
    · rw [List.length_cons]
      omega
    · omega
    · exact mark_solid plain
  rw [if_neg punct_]
  simp only
  have noDigit : cpDigit c = false := Bool.eq_false_iff.mpr digit
  have noCjk : cpAfmoeCjk c = false := Bool.eq_false_iff.mpr cjk
  generalize lead_ : (if (c :: s).head?.any afmoeLeads = true ∧ 1 < (c :: s).length
    then 1 else 0) = lead
  have opens_ (mark : cpMark c = true) : afmoeLeads c = true := by
    have letter : cpLetter c = false := by
      by_contra both
      have leads_ := mark_leads mark
      simp only [leads, Bool.and_eq_true, Bool.not_eq_true'] at leads_
      rw [leads_.1.1] at both
      exact both rfl
    have calm : newline c = false := by
      by_contra line
      have space := newline_space (Bool.not_eq_false _ ▸ line)
      rw [mark_not_space mark] at space
      cases space
    rw [afmoeLeads, calm, letter, cpPunctSym, mark, Bool.not_true, Bool.and_false]
    rfl
  by_cases body : ((c :: s).drop lead).head?.any afmoeBody = true
  · have some_ := scan_run_pos body
    have all := scan_run_le afmoeBody ((c :: s).drop lead)
    have room : 0 < ((c :: s).drop lead).length := by
      apply List.length_pos_iff.mpr
      intro empty
      rw [empty] at body
      cases body
    rw [List.length_drop] at all room
    rw [if_pos body]
    apply moves
    · omega
    · omega
    · cases s with
      | nil => rfl
      | cons d s =>
          cases mark : cpMark c with
          | false => exact mark_solid mark
          | true =>
              rw [if_pos ⟨opens_ mark, by simp⟩] at lead_
              rw [← lead_] at body
              have follows : afmoeBody d = true := body
              rw [loneMark, follows, Bool.not_true, Bool.and_false]
  rw [if_neg body]
  generalize space_ : (if (c :: s).head? = some cpSpaceChar ∧
    (c :: s).tail.head?.any cpPunctSym = true then 1 else 0) = k
  by_cases symbol : ((c :: s).drop k).head?.any cpPunctSym = true
  · have first := scan_run_le (fun c => cpPunctSym c && !cpAfmoeCjk c) ((c :: s).drop k)
    have second := scan_run_le newline
      ((c :: s).drop (k + scanRun (fun c => cpPunctSym c && !cpAfmoeCjk c) ((c :: s).drop k)))
    have room : 0 < ((c :: s).drop k).length := by
      apply List.length_pos_iff.mpr
      intro empty
      rw [empty] at symbol
      cases symbol
    rw [List.length_drop] at first second room
    rw [if_pos symbol]
    have parts : 0 < k + scanRun (fun c => cpPunctSym c && !cpAfmoeCjk c) ((c :: s).drop k) ∧
        cpMark c = false := by
      split_ifs at space_ with both
      · refine ⟨by omega, ?_⟩
        have space : c = cpSpaceChar := Option.some.inj both.1
        rw [space]
        rfl
      · have sign : cpPunctSym c = true := by
          rw [← space_] at symbol
          exact symbol
        rw [← space_]
        constructor
        · rw [List.drop_zero, scan_run_cons, sign, noCjk]
          simp
        · rw [cpPunctSym, Bool.and_eq_true, Bool.not_eq_true'] at sign
          exact sign.2
    apply moves
    · omega
    · omega
    · exact mark_solid parts.2
  rw [if_neg symbol]
  refine ⟨space_tail_bound _ c s, ?_⟩
  by_cases white : cpSpace c = true
  · have bounds := @space_tail_le (fun c => !cpDigit c && !cpAfmoeCjk c) _ s white
    have plain : cpMark c = false := by
      by_contra mark
      rw [mark_not_space (Bool.not_eq_false _ ▸ mark)] at white
      cases white
    exact (moves bounds.2 bounds.1 (mark_solid plain)).2
  · have solid : cpSpace c = false := Bool.eq_false_iff.mpr white
    have plain : c ≠ cpSpaceChar := by
      intro same
      rw [same] at solid
      cases solid
    have here : k = 0 := by
      rw [← space_, if_neg]
      rintro ⟨space, _⟩
      exact plain (Option.some.inj space)
    have noSymbol : cpPunctSym c = false := by
      rw [here] at symbol
      exact Bool.eq_false_iff.mpr symbol
    have noBody (first : lead = 0) : (cpLetter c || cpMark c) = false := by
      rw [first] at body
      have closed : afmoeBody c = false := Bool.eq_false_iff.mpr body
      rw [afmoeBody, noCjk, Bool.not_false, Bool.and_true] at closed
      exact closed
    have letter : cpLetter c = false := by
      by_contra both
      have isLetter : cpLetter c = true := Bool.not_eq_false _ ▸ both
      have first : lead = 0 := by
        rw [← lead_, if_neg]
        rintro ⟨leads_, _⟩
        have no : afmoeLeads c = false := by
          rw [afmoeLeads, isLetter, Bool.not_true, Bool.and_false, Bool.false_and]
        rw [List.head?_cons, Option.any_some, no] at leads_
        cases leads_
      rw [isLetter] at noBody
      cases noBody first
    have mark := mark_of_rest noDigit letter noSymbol solid
    rw [space_tail_solid solid]
    refine iff_of_true rfl ?_
    cases s with
    | nil =>
        have first : lead = 0 := by
          rw [← lead_, if_neg]
          rintro ⟨_, two⟩
          exact absurd two (by simp)
        have closed := noBody first
        rw [mark, Bool.or_true] at closed
        cases closed
    | cons d s =>
        rw [if_pos ⟨opens_ mark, by simp⟩] at lead_
        rw [← lead_] at body
        have closed : afmoeBody d = false := Bool.eq_false_iff.mpr body
        rw [loneMark, mark, noCjk, closed]
        rfl

theorem split_next_bounds (pre : Pre) (c : Nat) (s : List Nat) :
    splitNext pre (c :: s) ≤ (c :: s).length ∧
      (splitNext pre (c :: s) = 0 ↔ stalls pre (c :: s) = true) := by
  have moves {n : Nat} (bounds : 0 < n ∧ n ≤ (c :: s).length) :
      n ≤ (c :: s).length ∧ (n = 0 ↔ false = true) :=
    ⟨bounds.2, iff_of_false (by omega) Bool.false_ne_true⟩
  have agreed {next : List Nat → Nat} {r : Regex.Re Nat} {bad : List Nat → Bool}
      (agrees : StepAgrees next r bad) : 0 < next (c :: s) ∧ next (c :: s) ≤ (c :: s).length := by
    obtain ⟨_, _, _, _, some_, least, _⟩ := agrees c s
    exact ⟨some_, least⟩
  cases pre with
  | gpt2 => exact moves (gpt2_bounds c s)
  | llama3 => exact moves (pre_bounds 3 (by decide) c s)
  | qwen2 => exact moves (pre_bounds 1 (by decide) c s)
  | smollm => exact moves (smollm_bounds c s)
  | afmoe => exact afmoe_bounds c s
  | tekken => exact moves (agreed tekken_agrees)
  | llama4 => exact moves (agreed llama4_agrees)

/-- A splitter over an array reads inside, ends inside, and moves except at a lone mark. -/
theorem cursor_next_bounds (pre : Pre) {cp : List Nat} {n i : Nat} (room : n ≤ cp.length)
    (inside : i < n) :
    ∃ stop, Cursor.splitNext pre cp n i = some stop ∧ i ≤ stop ∧ stop ≤ n ∧
      (stop = i ↔ stalls pre (Cursor.view cp n i) = true) := by
  obtain ⟨c, s, rest, _⟩ := Cursor.view_some room inside
  have bounds := split_next_bounds pre c s
  have size := Cursor.view_length room i
  rw [← rest, size] at bounds
  refine ⟨_, Cursor.split_next_view pre room inside, by omega, by omega, ?_⟩
  rw [← bounds.2]
  omega

/-! ## The buffer -/

theorem letter_short (b : UInt8) : (u8Encode (b2u b)).length ≤ 2 := by
  have small := (letter_facts b).2.2.2
  rw [u8Encode, Json.u8Emit]
  split_ifs with one two
  · exact Nat.le_succ 1
  · exact Nat.le_refl 2
  · omega
  · omega

theorem map_word_fits {room : Nat} (word text : Bytes)
    (fits : word.length + 2 * text.length ≤ room) :
    mapWord room word text = some (word ++ alphabet text) ∧
      (word ++ alphabet text).length ≤ word.length + 2 * text.length := by
  induction text generalizing word with
  | nil =>
      rw [mapWord]
      simp [alphabet]
  | cons b text induction =>
      have short := letter_short b
      rw [List.length_cons] at fits ⊢
      have next := induction (word ++ u8Encode (b2u b)) (by
        rw [List.length_append]
        omega)
      have whole : word ++ alphabet (b :: text) = word ++ u8Encode (b2u b) ++ alphabet text := by
        rw [alphabet_cons, List.append_assoc]
        rfl
      rw [mapWord, if_pos (by omega), whole]
      refine ⟨next.1, Nat.le_trans next.2 ?_⟩
      rw [List.length_append]
      omega

/-! ## The loop -/

/-- The offset of a code point: what follows it covers the text from there on. -/
theorem tiles_offset {n k : Nat} {spans : List Span} (some_ : ∀ span ∈ spans, 0 < span.2) {i : Nat}
    (tiles : Tiles n i spans) (inside : k ≤ spans.length) :
    ∃ b, (spans.map Prod.fst ++ [n])[k]? = some b ∧ Tiles n b (spans.drop k) ∧ i + k ≤ b := by
  induction k generalizing i spans with
  | zero =>
      refine ⟨i, ?_, tiles, Nat.le_refl i⟩
      cases spans with
      | nil => exact congrArg some tiles.symm
      | cons span spans => exact congrArg some tiles.1
  | succ k induction =>
      cases spans with
      | nil => cases inside
      | cons span spans =>
          have positive := some_ span List.mem_cons_self
          obtain ⟨b, at_, rest, far⟩ := induction
            (fun later member => some_ later (List.mem_cons_of_mem span member)) tiles.2
            (by simpa using inside)
          exact ⟨b, at_, rest, by omega⟩

theorem cut_span_pos (text : Bytes) : ∀ span ∈ cut text, 0 < span.2 :=
  cut_loop_pos text.length 0 text

theorem code_points_length (text : Bytes) : (codePoints text).length = (cut text).length := by
  rw [codePoints, characters, List.length_map, List.length_map]

/-- What a pre-token of the text is. -/
structure PreToken.Fits (pre : Pre) (text : Bytes) (piece : PreToken) : Prop where
  some_ : 0 < piece.span.2
  mapped : piece.word = alphabet (slice text piece.span)
  room : piece.word.length ≤ 2 * text.length + 8
  guarded : piece.stalled = true ↔ stalls pre ((codePoints text).drop piece.first) = true

theorem piece_loop_partitions (pre : Pre) (text : Bytes) (rounds : Nat) {i b : Nat}
    (inside : i ≤ (codePoints text).length) (at_ : (offsets text)[i]? = some b)
    (tiles : Tiles text.length b ((cut text).drop i))
    (enough : (codePoints text).length - i ≤ rounds) :
    ∃ pieces, pieceLoop pre text (codePoints text) (offsets text) rounds i = some pieces ∧
      pieces.length ≤ (codePoints text).length - i ∧
        Tiles text.length b (pieces.map PreToken.span) ∧ ∀ piece ∈ pieces, piece.Fits pre text := by
  have count := code_points_length text
  have finish (last : i = (codePoints text).length) : Tiles text.length b [] := by
    rw [List.drop_eq_nil_of_le (by omega)] at tiles
    exact tiles
  induction rounds generalizing i b with
  | zero =>
      have last : i = (codePoints text).length := by omega
      rw [pieceLoop, if_neg (by omega)]
      exact ⟨[], rfl, Nat.zero_le _, finish last, by simp⟩
  | succ rounds induction =>
      rw [pieceLoop]
      by_cases more : i < (codePoints text).length
      · obtain ⟨stop, moved, least, most, stuck⟩ :=
          cursor_next_bounds pre (Nat.le_refl (codePoints text).length) more
        rw [if_pos more, moved, Option.bind_some, at_, Option.bind_some]
        have forward : i < (if stop ≤ i then i + 1 else stop) := by
          split_ifs <;> omega
        have within_ : (if stop ≤ i then i + 1 else stop) ≤ (codePoints text).length := by
          split_ifs <;> omega
        generalize (if stop ≤ i then i + 1 else stop) = next at forward within_
        have left : next - i ≤ ((cut text).drop i).length := by
          rw [List.length_drop]
          omega
        obtain ⟨b1, end_, rest, far⟩ := tiles_offset
          (fun span member => cut_span_pos text span (List.mem_of_mem_drop member)) tiles left
        have place : i + (next - i) = next := by omega
        have offset : (offsets text)[next]? = some b1 := by
          have shifted : (offsets text).drop i =
              ((cut text).drop i).map Prod.fst ++ [text.length] := by
            rw [offsets, List.drop_append_of_le_length (by rw [List.length_map]; omega),
              List.map_drop]
          rw [← shifted, List.getElem?_drop, place] at end_
          exact end_
        rw [List.drop_drop, place] at rest
        have inText : b1 ≤ text.length := tiles_le rest
        have size : (slice text (b, b1 - b)).length = b1 - b := by
          rw [slice, List.length_take, List.length_drop]
          omega
        obtain ⟨mapped, short⟩ := @map_word_fits (text.length * 2 + 8) []
          (slice text (b, b1 - b)) (by rw [size, List.length_nil]; omega)
        rw [List.nil_append] at mapped short
        rw [List.length_nil, size] at short
        have finish_ (last : next = (codePoints text).length) : Tiles text.length b1 [] := by
          rw [List.drop_eq_nil_of_le (by omega)] at rest
          exact rest
        obtain ⟨pieces, looped, few, covers, fit⟩ :=
          induction within_ offset rest (by omega) finish_
        rw [offset, Option.bind_some, mapped, Option.bind_some, looped, Option.map_some]
        refine ⟨_, rfl, ?_, ?_, ?_⟩
        · rw [List.length_cons]
          omega
        · refine ⟨rfl, ?_⟩
          have joined : b + (b1 - b) = b1 := by omega
          dsimp only
          rw [joined]
          exact covers
        · intro piece member
          rcases List.mem_cons.mp member with here | later
          · rw [here]
            have whole : Cursor.view (codePoints text) (codePoints text).length i =
                (codePoints text).drop i := by
              rw [Cursor.view, List.take_length]
            rw [whole] at stuck
            refine ⟨by dsimp only; omega, rfl, by dsimp only; omega, ?_⟩
            rw [← stuck]
            simp only [decide_eq_true_eq]
            omega
          · exact fit piece later
      · have last : i = (codePoints text).length := by omega
        rw [if_neg more]
        exact ⟨[], rfl, Nat.zero_le _, finish last, by simp⟩

/-- Every call of a splitter reads inside and ends behind its start and inside, except that afmoe
stays at a lone mark; smollm keeps to its segment. The loop then ends after at most one piece for
each code point, its guard used at the lone marks alone; the pieces cover the bytes one after the
other, and each mapped word fits its buffer. -/
theorem pre_tokens_partition :
    (∀ pre cp n i, n ≤ cp.length → i < n → ∃ stop, Cursor.splitNext pre cp n i = some stop ∧
        i ≤ stop ∧ stop ≤ n ∧ (stop = i ↔ stalls pre (Cursor.view cp n i) = true)) ∧
      (∀ cp n i, n ≤ cp.length → i < n → (Cursor.view cp n i).head?.any cpDigit = false →
        ∃ seg stop, Cursor.run cp n (fun c => !cpDigit c) i = some seg ∧ seg ≤ n ∧
          Cursor.gpt2SplitNext cp seg i = some stop ∧ i < stop ∧ stop ≤ seg) ∧
        ∀ pre text, ∃ pieces, bpePartition pre text = some pieces ∧
          pieces.length ≤ (codePoints text).length ∧
            Tiles text.length 0 (pieces.map PreToken.span) ∧
              ∀ piece ∈ pieces, piece.Fits pre text := by
  refine ⟨fun pre cp n i room inside => cursor_next_bounds pre room inside, ?_, ?_⟩
  · intro cp n i room inside word
    obtain ⟨c, s, rest, _⟩ := Cursor.view_some room inside
    have short := scan_run_le (fun c => !cpDigit c) (Cursor.view cp n i)
    have size := Cursor.view_length room i
    have some_ : 0 < scanRun (fun c => !cpDigit c) (Cursor.view cp n i) := by
      rw [rest] at word ⊢
      have plain : cpDigit c = false := word
      rw [scan_run_cons, plain]
      simp
    obtain ⟨stop, moved, least, most, stuck⟩ := @cursor_next_bounds .gpt2 cp
      (i + scanRun (fun c => !cpDigit c) (Cursor.view cp n i)) i (by omega) (by omega)
    have goes : stop ≠ i := fun same => Bool.false_ne_true (stuck.mp same)
    exact ⟨_, stop, Cursor.run_view room _ i, by omega, moved, by omega, most⟩
  · intro pre text
    obtain ⟨b, at_, tiles, _⟩ := tiles_offset (cut_span_pos text) (cut_tiles text)
      (Nat.zero_le (cut text).length)
    have zero : b = 0 := by
      cases shape : cut text with
      | nil =>
          have tiles_ := cut_tiles text
          rw [shape] at tiles_ at_
          have same : text.length = b := Option.some.inj at_
          exact same.symm.trans tiles_.symm
      | cons span more =>
          have tiles_ := cut_tiles text
          rw [shape] at tiles_ at_
          have same : span.1 = b := Option.some.inj at_
          exact same.symm.trans tiles_.1
    rw [zero] at at_ tiles
    exact piece_loop_partitions pre text (codePoints text).length (Nat.zero_le _) at_ tiles
      (Nat.le_refl _)

/-- A combining mark in front of an exclamation mark: afmoe does not move. -/
theorem lone_mark_stays : codePoints [0xCC, 0x81, 0x21] = [0x301, 0x21] ∧
    Cursor.splitNext .afmoe (codePoints [0xCC, 0x81, 0x21]) 2 0 = some 0 := by
  decide +kernel

theorem short_text_cut :
    (∃ stop, Cursor.splitNext .tekken [0x61, 0x20, 0x62] 3 0 = some stop ∧ 0 ≤ stop ∧ stop ≤ 3 ∧
        (stop = 0 ↔ stalls .tekken (Cursor.view [0x61, 0x20, 0x62] 3 0) = true)) ∧
      (stalls .afmoe (Cursor.view [0x301, 0x21] 2 0) = true ∧
        Cursor.splitNext .afmoe [0x301, 0x21] 2 0 = some 0) ∧
      ∃ seg stop, Cursor.run [0x61, 0x20, 0x31] 3 (fun c => !cpDigit c) 0 = some seg ∧ seg ≤ 3 ∧
        Cursor.gpt2SplitNext [0x61, 0x20, 0x31] seg 0 = some stop ∧ 0 < stop ∧ stop ≤ seg := by
  have all := pre_tokens_partition
  have lone : stalls .afmoe (Cursor.view [0x301, 0x21] 2 0) = true := by decide +kernel
  obtain ⟨stop, moved, -, -, stuck⟩ := all.1 .afmoe [0x301, 0x21] 2 0 (by decide) (by decide)
  rw [stuck.mpr lone] at moved
  exact ⟨all.1 .tekken [0x61, 0x20, 0x62] 3 0 (by decide) (by decide), ⟨lone, moved⟩,
    all.2.1 [0x61, 0x20, 0x31] 3 0 (by decide) (by decide) (by decide +kernel)⟩

end GridcoreRunner.Tok
