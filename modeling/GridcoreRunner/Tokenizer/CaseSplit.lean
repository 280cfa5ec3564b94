import GridcoreRunner.Tokenizer.SplitRegex

/-!
# Splitting on case

`tekken_letters` scans both runs greedily and never backtracks. That is the first
match of the regular expression but in two places: a run of letters that are not
lower case, that ends in capitals behind a caseless letter and is not followed by a
letter that is not upper case (the regex gives the capitals back); and a single
combining mark in front of punctuation or a newline (the regex takes the mark
alone, the scan sees no letter).
-/

namespace GridcoreRunner.Tok

set_option autoImplicit false

open Regex

/-- The regex backtracks out of the capitals at the end of the run. -/
def badRun (s : List Nat) : Bool :=
  let run := s.take (scanRun cpLetterUpperish s)
  !(s.drop (scanRun cpLetterUpperish s)).head?.any cpLetterLowerish &&
    run.any cpLetterLowerish && !run.getLast?.any cpLetterLowerish

/-- The punctuation alternative takes more than the mark. -/
def strayMark : List Nat → Bool
  | c :: d :: _ => cpMark c && (cpOther d && !cpMark d || newline d)
  | _ => false

/-- The scan differs from the regex at this place. -/
def caseBad : List Nat → Bool
  | [] => false
  | c :: s => badRun (if leads c && !cpMark c then s else c :: s) || strayMark (c :: s)

/-! ## Classes -/

theorem within_iff (c low high : Nat) : within c low high = true ↔ low ≤ c ∧ c ≤ high := by
  simp [within]

theorem within_false_iff (c low high : Nat) : within c low high = false ↔ c < low ∨ high < c := by
  simp only [within, Bool.and_eq_false_iff, decide_eq_false_iff_not]
  omega

theorem mark_range {c : Nat} (mark : cpMark c = true) :
    0x300 ≤ c ∧ (c ≤ 0x36f ∨ 0x900 ≤ c) ∧ c ≤ 0xe4e := by
  simp only [cpMark, Bool.or_eq_true, within_iff, beq_iff_eq] at mark
  omega

theorem within_out {c low high : Nat} (out : c < low ∨ high < c) : within c low high = false := by
  simp only [within, Bool.and_eq_false_iff, decide_eq_false_iff_not]
  omega

theorem mark_caseless {c : Nat} (mark : cpMark c = true) : cpUpper c = false ∧ cpLower c = false := by
  rcases mark_range mark with ⟨low, gap, high⟩
  have not_ascii : ¬c < 0x80 := by
    intro below
    exact absurd (Nat.lt_of_lt_of_le below (show 0x80 ≤ 0x300 by decide)) (not_lt.mpr low)
  constructor
  · simp (disch := omega) [cpUpper, within_out, not_ascii]
  · simp (disch := omega) [cpLower, within_out, not_ascii]

theorem mark_both {c : Nat} (mark : cpMark c = true) :
    cpLetterUpperish c = true ∧ cpLetterLowerish c = true := by
  simp [cpLetterUpperish, cpLetterLowerish, mark, mark_caseless mark]

theorem mark_not_letter {c : Nat} (mark : cpMark c = true) : cpLetter c = false := by
  rcases mark_range mark with ⟨low, _, _⟩
  have not_ascii : asciiLetter c = false := by
    simp (disch := omega) [asciiLetter, within_out]
  unfold cpLetter
  simp [not_ascii, mark]

theorem mark_leads {c : Nat} (mark : cpMark c = true) : leads c = true := by
  rcases mark_range mark with ⟨low, _, _⟩
  have not_digit : cpDigit c = false := by
    simp (disch := omega) [cpDigit, within_out]
  have not_newline : newline c = false := by
    simp only [newline, cpCr, cpLf, Bool.or_eq_false_iff, beq_eq_false_iff_ne]
    omega
  simp [leads, mark_not_letter mark, not_digit, not_newline]

theorem space_iff (c : Nat) : cpSpace c = true ↔
    c = 0x20 ∨ c = 0x09 ∨ c = 0x0a ∨ c = 0x0d ∨ c = 0x0b ∨ c = 0x0c ∨ c = 0xa0 ∨
      within c 0x2000 0x200a = true ∨ c = 0x2028 ∨ c = 0x2029 ∨ c = 0x202f ∨ c = 0x205f ∨
      c = 0x3000 := by
  rw [cpSpace, decide_eq_true_eq, cpClass]
  constructor
  · intro space
    by_contra none_
    rw [if_neg none_] at space
    split_ifs at space
  · intro one
    exact if_pos one

theorem mark_not_space {c : Nat} (mark : cpMark c = true) : cpSpace c = false := by
  rcases mark_range mark with ⟨low, gap, high⟩
  by_contra space
  rw [Bool.not_eq_false, space_iff, within_iff] at space
  omega

theorem mark_other {c : Nat} (mark : cpMark c = true) : cpOther c = true := by
  have lead := mark_leads mark
  simp only [leads, Bool.and_eq_true, Bool.not_eq_true'] at lead
  simp [cpOther, mark_not_space mark, lead.1.1, lead.1.2]

/-- No letter is both in upper and in lower case. -/
theorem lower_not_upper {c : Nat} (lower : cpLower c = true) : cpUpper c = false := by
  unfold cpLower at lower
  unfold cpUpper
  simp only [within_iff] at lower ⊢
  by_cases below : c < 0x80
  · have other : ¬(0x41 ≤ c ∧ c ≤ 0x5a) := by
      intro upper
      rw [if_neg (by omega), if_pos below] at lower
      cases lower
    rw [if_neg other, if_pos below]
  · rw [if_neg (by omega), if_neg below]
    rw [if_neg (by omega), if_neg below] at lower
    by_cases latin1 : 0xc0 ≤ c ∧ c ≤ 0xde
    · rw [if_neg (by omega), if_neg (by omega), if_neg (by omega), if_neg (by omega),
        if_neg (by omega)] at lower
      simp only [within, Bool.and_eq_true, decide_eq_true_eq] at lower
      omega
    rw [if_neg latin1]
    by_cases latinA : 0x100 ≤ c ∧ c ≤ 0x17f
    · rw [if_neg (by omega), if_pos latinA] at lower
      rw [if_pos latinA]
      simpa using lower
    rw [if_neg latinA]
    by_cases ext : 0x1e00 ≤ c ∧ c ≤ 0x1e95
    · rw [if_neg (by omega), if_neg latinA, if_pos (by omega)] at lower
      simp only [Bool.or_eq_true, decide_eq_true_eq] at lower
      rw [if_pos ext, decide_eq_false_iff_not]
      omega
    rw [if_neg ext]
    by_cases viet : 0x1ea0 ≤ c ∧ c ≤ 0x1eff
    · rw [if_neg (by omega), if_neg latinA, if_neg (by omega), if_pos viet] at lower
      rw [if_pos viet, decide_eq_false_iff_not]
      simp only [decide_eq_true_eq] at lower
      omega
    rw [if_neg viet]
    by_cases greek : 0x386 ≤ c ∧ c ≤ 0x3ab
    · rw [if_neg (by omega), if_neg latinA, if_neg (by omega), if_neg viet, if_neg (by omega),
        within_iff] at lower
      omega
    rw [if_neg greek, within_false_iff]
    by_contra cyrillic
    rw [if_neg (by omega), if_neg latinA, if_neg (by omega), if_neg viet, if_neg (by omega),
        within_iff] at lower
    omega

/-- A letter or a mark: what a run of letters is made of. -/
def opens (c : Nat) : Bool := cpLetter c || cpMark c

theorem upperish_opens {c : Nat} (up : cpLetterUpperish c = true) : opens c = true := by
  simp only [cpLetterUpperish, Bool.and_eq_true] at up
  exact up.1

theorem lowerish_opens {c : Nat} (low : cpLetterLowerish c = true) : opens c = true := by
  simp only [cpLetterLowerish, Bool.and_eq_true] at low
  exact low.1

theorem letter_upper_or_lower {c : Nat} (letter : opens c = true)
    (not_up : cpLetterUpperish c = false) : cpLetterLowerish c = true := by
  unfold opens at letter
  simp only [cpLetterUpperish, letter, Bool.true_and, Bool.not_eq_false'] at not_up
  simp [cpLetterLowerish, letter, lower_not_upper not_up]

/-! ## Where the regex stops -/

/-- The end of `[upperish]* [lowerish]+`, with backtracking. -/
def upLow (s : List Nat) : Option Nat :=
  let u := scanRun cpLetterUpperish s
  if (s.drop u).head?.any cpLetterLowerish then
    some (u + scanRun cpLetterLowerish (s.drop u))
  else (lastWhere cpLetterLowerish (s.take u)).map fun k => k + scanRun cpLetterLowerish (s.drop k)

/-- One run of letters that are not upper case. -/
def lowHere (s : List Nat) : Option Nat :=
  if s.head?.any cpLetterLowerish then some (scanRun cpLetterLowerish s) else none

theorem up_low_cons (c : Nat) (s : List Nat) :
    upLow (c :: s) =
      if cpLetterUpperish c then ((upLow s).map (· + 1)).or (lowHere (c :: s))
      else lowHere (c :: s) := by
  have here : lowHere (c :: s) =
      if cpLetterLowerish c then some (scanRun cpLetterLowerish (c :: s)) else none := rfl
  rw [here]
  by_cases up : cpLetterUpperish c = true
  · have run : scanRun cpLetterUpperish (c :: s) = scanRun cpLetterUpperish s + 1 := by
      rw [scan_run_cons, if_pos up]
    simp only [if_pos up, upLow, run, List.drop_succ_cons, List.take_succ_cons, lastWhere]
    by_cases next : (s.drop (scanRun cpLetterUpperish s)).head?.any cpLetterLowerish = true
    · rw [if_pos next, if_pos next]
      simp [Nat.add_right_comm]
    · rw [if_neg next, if_neg next]
      rcases lastWhere cpLetterLowerish (s.take (scanRun cpLetterUpperish s)) with _ | k
      · by_cases low : cpLetterLowerish c = true
        · simp [low]
        · simp [low]
      · simp [Nat.add_right_comm]
  · have run : scanRun cpLetterUpperish (c :: s) = 0 := by rw [scan_run_cons, if_neg up]
    rw [if_neg up]
    simp only [upLow, run, List.drop_zero, List.take_zero, lastWhere]
    by_cases low : cpLetterLowerish c = true
    · simp [low]
    · simp [low]

/-- The end of the greedy scan. -/
def greedyEnd (s : List Nat) : Nat :=
  scanRun cpLetterUpperish s + scanRun cpLetterLowerish (s.drop (scanRun cpLetterUpperish s))

/-- The end of `[upperish]+ [lowerish]*`. -/
def upOnly (s : List Nat) : Option Nat :=
  if s.head?.any cpLetterUpperish then some (greedyEnd s) else none

section

variable {suffix : Re Nat} {g : List Nat → Nat}

/-- Always matches, taking `g` characters. -/
def Takes (suffix : Re Nat) (g : List Nat → Nat) : Prop := ∀ x, suffix.first x = some (x.drop (g x))

/-- The rest of a letter run that ends at `e`, past its suffix. -/
def afterSuffix (g : List Nat → Nat) (s : List Nat) (e : Nat) : List Nat := s.drop (e + g (s.drop e))

theorem takes_total (takes : Takes suffix g) (x : List Nat) : suffix.first x ≠ none := by
  rw [takes x]
  simp

theorem after_suffix_cons (c : Nat) (s : List Nat) (e : Nat) :
    afterSuffix g (c :: s) (e + 1) = afterSuffix g s e := by
  rw [afterSuffix, afterSuffix, List.drop_succ_cons, Nat.add_right_comm, List.drop_succ_cons]

theorem first_low (takes : Takes suffix g) (s : List Nat) :
    (Re.seq (.rep cpLetterLowerish 1 none) suffix).first s =
      if s.head?.any cpLetterLowerish then some (afterSuffix g s (scanRun cpLetterLowerish s))
      else none := by
  rw [first_seq _ _ _ (takes_total takes), first_plus_run]
  split_ifs
  · simp [takes _, afterSuffix, List.drop_drop]
  · rfl

theorem first_up_low (takes : Takes suffix g) (s : List Nat) :
    (Re.seq (.rep cpLetterUpperish 0 none) (.seq (.rep cpLetterLowerish 1 none) suffix)).first s =
      (upLow s).map (afterSuffix g s) := by
  induction s with
  | nil => rw [first_seq_star_nil, first_low takes]; rfl
  | cons c s ih =>
      have here : (Re.seq (.rep cpLetterLowerish 1 none) suffix).first (c :: s) =
          (lowHere (c :: s)).map (afterSuffix g (c :: s)) := by
        rw [first_low takes, lowHere]
        split_ifs
        · rfl
        · rfl
      have shift : (upLow s).map (afterSuffix g s) =
          ((upLow s).map (· + 1)).map (afterSuffix g (c :: s)) := by
        rw [Option.map_map]
        congr 1
        funext e
        exact (after_suffix_cons c s e).symm
      rw [first_seq_star, ih, here, up_low_cons, shift]
      split_ifs
      · rw [Option.map_or]
      · rfl

theorem first_up_only (takes : Takes suffix g) (s : List Nat) :
    (Re.seq (.rep cpLetterUpperish 1 none) (.seq (.rep cpLetterLowerish 0 none) suffix)).first s =
      (upOnly s).map (afterSuffix g s) := by
  have star : ∀ x, (Re.seq (.rep cpLetterLowerish 0 none) suffix).first x =
      some (afterSuffix g x (scanRun cpLetterLowerish x)) := by
    intro x
    rw [first_seq _ _ _ (takes_total takes), first_star_run]
    simp [takes _, afterSuffix, List.drop_drop]
  rw [first_seq _ _ _ (fun x => by rw [star x]; simp), first_plus_run, upOnly]
  split_ifs
  · simp [star, greedyEnd, afterSuffix, List.drop_drop, Nat.add_assoc]
  · rfl

/-- The end the letter alternatives find. -/
def caseEnd : List Nat → Option Nat
  | [] => none
  | c :: s =>
      if leads c then
        (((upLow s).map (· + 1)).or (upLow (c :: s))).or
          (((upOnly s).map (· + 1)).or (upOnly (c :: s)))
      else (upLow (c :: s)).or (upOnly (c :: s))

theorem first_letters (takes : Takes suffix g) (s : List Nat) :
    (letters suffix).first s = (caseEnd s).map (afterSuffix g s) := by
  have shift : ∀ (c : Nat) (s : List Nat) (e : Option Nat),
      e.map (afterSuffix g s) = (e.map (· + 1)).map (afterSuffix g (c :: s)) := by
    intro c s e
    cases e with
    | none => rfl
    | some e => simp [after_suffix_cons]
  cases s with
  | nil =>
      rw [letters, first_alt, first_seq_opt_nil, first_seq_opt_nil, first_up_low takes,
        first_up_only takes]
      rfl
  | cons c s =>
      rw [letters, first_alt, first_seq_opt_cons, first_seq_opt_cons, first_up_low takes,
        first_up_low takes, first_up_only takes, first_up_only takes, caseEnd]
      by_cases lead : leads c = true
      · rw [if_pos lead, if_pos lead, if_pos lead, shift c s (upLow s), shift c s (upOnly s)]
        simp only [Option.map_or]
      · rw [if_neg lead, if_neg lead, if_neg lead, Option.map_or]

end

/-! ## Where the scan stops -/

theorem last_where_none {p : Nat → Bool} {s : List Nat} (none_ : lastWhere p s = none) :
    s.any p = false := by
  induction s with
  | nil => rfl
  | cons c s ih =>
      rw [lastWhere] at none_
      rcases later : lastWhere p s with _ | j
      · rw [later] at none_
        simp only at none_
        split_ifs at none_ with here
        simp only [List.any_cons, ih later, Bool.or_false]
        simpa using here
      · rw [later] at none_
        cases none_

theorem last_where_split {p : Nat → Bool} {s : List Nat} {k : Nat} (last : lastWhere p s = some k) :
    ∃ before x after, s = before ++ x :: after ∧ before.length = k ∧ p x = true ∧
      after.any p = false := by
  induction s generalizing k with
  | nil => cases last
  | cons c s ih =>
      rw [lastWhere] at last
      rcases later : lastWhere p s with _ | j
      · rw [later] at last
        simp only at last
        split_ifs at last with here
        cases last
        exact ⟨[], c, s, rfl, rfl, here, last_where_none later⟩
      · rw [later] at last
        cases last
        rcases ih later with ⟨before, x, after, shape, count, at_, none_⟩
        refine ⟨c :: before, x, after, ?_, ?_, at_, none_⟩
        · rw [shape, List.cons_append]
        · rw [List.length_cons, count]

theorem scan_run_zero {p : Nat → Bool} {s : List Nat} (head : s.head?.any p = false) :
    scanRun p s = 0 := by
  cases s with
  | nil => rfl
  | cons c s =>
      have stop : p c = false := by simpa using head
      simp [scan_run_cons, stop]

theorem scan_run_pos {p : Nat → Bool} {s : List Nat} (head : s.head?.any p = true) :
    0 < scanRun p s := by
  cases s with
  | nil => cases head
  | cons c s =>
      have taken : p c = true := by simpa using head
      simp [scan_run_cons, taken]

theorem take_scan_run (p : Nat → Bool) (s : List Nat) : s.take (scanRun p s) = s.takeWhile p := by
  induction s with
  | nil => rfl
  | cons c s ih =>
      by_cases taken : p c = true
      · simpa [scanRun, taken] using ih
      · simp [scanRun, taken]

theorem any_last {p : Nat → Bool} {s : List Nat} (none_ : s.any p = false) :
    s.getLast?.any p = false := by
  rcases last : s.getLast? with _ | x
  · rfl
  · have inside := List.mem_of_getLast? last
    simpa using List.any_eq_false.mp none_ x inside

theorem contraction_head {s : List Nat} (head : s.head?.any opens = true) : contractionLen s = 0 := by
  rcases s with _ | ⟨c, _ | ⟨x, s⟩⟩
  · rfl
  · rfl
  · have not_quote : c ≠ cpQuote := by
      intro quote
      subst quote
      have closed : opens cpQuote = false := by decide
      simp [closed] at head
    simp [contractionLen, not_quote]

/-- Where the letter alternatives end without a leading character. -/
def bodyEnd (s : List Nat) : Option Nat := (upLow s).or (upOnly s)

theorem body_closed {s : List Nat} (closed : s.head?.any opens = false) :
    upLow s = none ∧ upOnly s = none ∧ badRun s = false := by
  have no_up : s.head?.any cpLetterUpperish = false := by
    by_contra up
    cases s with
    | nil => exact up rfl
    | cons c s =>
        have open_ : opens c = true := upperish_opens (by simpa using up)
        simp [open_] at closed
  have no_low : s.head?.any cpLetterLowerish = false := by
    by_contra low
    cases s with
    | nil => exact low rfl
    | cons c s =>
        have open_ : opens c = true := lowerish_opens (by simpa using low)
        simp [open_] at closed
  have run := scan_run_zero no_up
  refine ⟨?_, ?_, ?_⟩
  · simp only [upLow, run, List.drop_zero, no_low, List.take_zero, lastWhere]
    rfl
  · simp [upOnly, no_up]
  · simp [badRun, run]

theorem body_end {s : List Nat} (open_ : s.head?.any opens = true) :
    ∃ e, bodyEnd s = some e ∧ 0 < e ∧ e ≤ greedyEnd s ∧ (badRun s = false → e = greedyEnd s) ∧
      (badRun s = true → e < greedyEnd s ∧ contractionLen (s.drop e) = 0) := by
  by_cases next : (s.drop (scanRun cpLetterUpperish s)).head?.any cpLetterLowerish = true
  · -- a lower case run follows: nothing to give back
    have some_ := scan_run_pos next
    refine ⟨greedyEnd s, ?_, ?_, Nat.le_refl _, fun _ => rfl, ?_⟩
    · rw [bodyEnd, upLow, if_pos next, Option.some_or]
      rfl
    · rw [greedyEnd]
      omega
    · intro bad
      simp only [badRun, next] at bad
      cases bad
  · have stop : (s.drop (scanRun cpLetterUpperish s)).head?.any cpLetterLowerish = false := by
      simpa using next
    have up : s.head?.any cpLetterUpperish = true := by
      by_contra not_up
      rw [scan_run_zero (by simpa using not_up), List.drop_zero] at stop
      cases s with
      | nil => cases open_
      | cons c s =>
          have low := letter_upper_or_lower (c := c) (by simpa using open_) (by simpa using not_up)
          simp [low] at stop
    have run_end : greedyEnd s = scanRun cpLetterUpperish s := by
      rw [greedyEnd, scan_run_zero stop, Nat.add_zero]
    rcases last : lastWhere cpLetterLowerish (s.take (scanRun cpLetterUpperish s)) with _ | k
    · -- capitals only
      have capitals := last_where_none last
      refine ⟨greedyEnd s, ?_, ?_, Nat.le_refl _, fun _ => rfl, ?_⟩
      · rw [bodyEnd, upLow, if_neg next, last, upOnly, if_pos up]
        rfl
      · rw [run_end]
        exact scan_run_pos up
      · intro bad
        simp only [badRun, capitals, Bool.and_false, Bool.false_and] at bad
        cases bad
    · rcases last_where_split last with ⟨before, x, after, shape, count, low, capitals⟩
      have text : s = before ++ x :: (after ++ s.drop (scanRun cpLetterUpperish s)) := by
        conv_lhs => rw [← List.take_append_drop (scanRun cpLetterUpperish s) s, shape]
        simp
      have here : s.drop k = x :: (after ++ s.drop (scanRun cpLetterUpperish s)) := by
        conv_lhs => rw [text, ← count]
        simp
      have past : s.drop (k + 1) = after ++ s.drop (scanRun cpLetterUpperish s) := by
        rw [← List.tail_drop, here, List.tail_cons]
      have length_ : scanRun cpLetterUpperish s = k + 1 + after.length := by
        have taken := congrArg List.length shape
        rw [List.length_take, Nat.min_eq_left (scan_run_le _ s), List.length_append, count,
          List.length_cons] at taken
        omega
      have one : scanRun cpLetterLowerish (s.drop k) = 1 := by
        have stops : (after ++ s.drop (scanRun cpLetterUpperish s)).head?.any cpLetterLowerish = false := by
          cases after with
          | nil => exact stop
          | cons y after =>
              simp only [List.any_cons, Bool.or_eq_false_iff] at capitals
              simpa using capitals.1
        rw [here, scan_run_cons, if_pos low, scan_run_zero stops]
      have ends : bodyEnd s = some (k + 1) := by
        rw [bodyEnd, upLow, if_neg next, last, Option.map_some, one, Option.some_or]
      have low_run : (s.take (scanRun cpLetterUpperish s)).any cpLetterLowerish = true := by
        simp [shape, low]
      refine ⟨k + 1, ends, by omega, by omega, ?_, ?_⟩
      · intro good
        cases after with
        | nil =>
            rw [run_end, length_, List.length_nil]
        | cons y after =>
            have end_ : (before ++ x :: y :: after).getLast? = (y :: after).getLast? := by
              rw [List.getLast?_append, List.getLast?_cons_cons, List.getLast?_cons, Option.some_or]
            have last_capital := any_last capitals
            simp only [badRun, stop, low_run] at good
            rw [shape, end_, last_capital] at good
            cases good
      · intro bad
        cases after with
        | nil =>
            simp [badRun, shape, low] at bad
        | cons y after =>
            refine ⟨?_, ?_⟩
            · rw [run_end, length_, List.length_cons]
              omega
            · apply contraction_head
              have inside : y ∈ s.takeWhile cpLetterUpperish := by
                rw [← take_scan_run, shape]
                simp
              have y_opens := upperish_opens (List.all_eq_true.mp List.all_takeWhile y inside)
              simpa [past] using y_opens

/-! ## One piece -/

theorem greedy_end_pos {s : List Nat} (open_ : s.head?.any opens = true) : 0 < greedyEnd s := by
  rcases body_end open_ with ⟨e, _, some_, most, _⟩
  omega

theorem greedy_end_le (s : List Nat) : greedyEnd s ≤ s.length := by
  have first := scan_run_le cpLetterUpperish s
  have second := scan_run_le cpLetterLowerish (s.drop (scanRun cpLetterUpperish s))
  rw [List.length_drop] at second
  rw [greedyEnd]
  omega

theorem tekken_letters_eq (c : Nat) (s : List Nat) :
    tekkenLetters (c :: s) =
      if leads c then (if s.head?.any opens then greedyEnd s + 1 else 0)
      else if opens c then greedyEnd (c :: s) else 0 := by
  by_cases lead : leads c = true
  · have lead_any : (c :: s).head?.any leads = true := by simpa using lead
    rw [if_pos lead]
    simp only [tekkenLetters, lead_any, if_true]
    change (if (!s.head?.any opens) = true then 0
      else if 0 < greedyEnd s then 1 + greedyEnd s else 0) = _
    by_cases open_ : s.head?.any opens = true
    · simp [open_, greedy_end_pos open_, Nat.add_comm]
    · simp [open_]
  · have lead_any : ¬(c :: s).head?.any leads = true := by simpa using lead
    rw [if_neg lead]
    simp only [tekkenLetters, if_neg lead_any, List.drop_zero]
    change (if (!opens c) = true then 0
      else if 0 < greedyEnd (c :: s) then 0 + greedyEnd (c :: s) else 0) = _
    by_cases open_ : opens c = true
    · have some_ := greedy_end_pos (s := c :: s) (by simpa using open_)
      simp [open_, some_]
    · simp [open_]

/-- Setting the bit of the lower case makes no letter of anything else. -/
theorem fold_letter {x : Nat} (low : 0x61 ≤ x ||| 32) (high : x ||| 32 ≤ 0x7a) :
    asciiLetter x = true := by
  have small : ∀ y : Nat, y < 0x7b → 0x61 ≤ y ||| 32 → y ||| 32 ≤ 0x7a → asciiLetter y = true := by
    set_option maxRecDepth 4000 in
    decide
  have above : x ≤ x ||| 32 := Nat.left_le_or
  exact small x (by omega) low high

theorem contraction_len_cases (s : List Nat) :
    contractionLen s = 0 ∨ ∃ x rest, s = cpQuote :: x :: rest ∧ asciiLetter x = true ∧
      2 ≤ contractionLen s ∧ contractionLen s ≤ s.length := by
  rcases s with _ | ⟨c, _ | ⟨x, s⟩⟩
  · exact Or.inl rfl
  · exact Or.inl rfl
  · by_cases quote : c = cpQuote
    · subst quote
      by_cases one : x ||| 32 = 0x73 ∨ x ||| 32 = 0x74 ∨ x ||| 32 = 0x6d ∨ x ||| 32 = 0x64
      · have two : contractionLen (cpQuote :: x :: s) = 2 := by
          simp only [contractionLen, ne_eq, not_true, if_false, if_pos one]
        refine Or.inr ⟨x, s, rfl, fold_letter (by omega) (by omega), by omega, ?_⟩
        rw [two, List.length_cons, List.length_cons]
        omega
      · cases s with
        | nil =>
            left
            simp only [contractionLen, ne_eq, not_true, if_false, if_neg one]
            simp
        | cons y s =>
            by_cases two : (x ||| 32 = 0x72 ∧ y ||| 32 = 0x65) ∨ (x ||| 32 = 0x76 ∧ y ||| 32 = 0x65) ∨
                (x ||| 32 = 0x6c ∧ y ||| 32 = 0x6c)
            · have three : contractionLen (cpQuote :: x :: y :: s) = 3 := by
                simp only [contractionLen, ne_eq, not_true, if_false, if_neg one, if_pos two]
              refine Or.inr ⟨x, y :: s, rfl, fold_letter (by omega) (by omega), by omega, ?_⟩
              rw [three, List.length_cons, List.length_cons, List.length_cons]
              omega
            · left
              simp only [contractionLen, ne_eq, not_true, if_false, if_neg one, if_neg two]
    · left
      simp [contractionLen, quote]

theorem punct_run_le {p tail : Nat → Bool} {s : List Nat} {k : Nat} (run : punctRun p tail s = some k) :
    0 < k ∧ k ≤ s.length := by
  unfold punctRun at run
  generalize (if s.head? = some cpSpaceChar ∧ s.tail.head?.any p = true then 1 else 0) = j at run
  by_cases here : (s.drop j).head?.any p = true
  · simp only [if_pos here, Option.some.injEq] at run
    have some_ := scan_run_pos here
    have first := scan_run_le p (s.drop j)
    have second := scan_run_le tail (s.drop (j + scanRun p (s.drop j)))
    rw [List.length_drop] at first second
    omega
  · simp only [if_neg here] at run
    cases run

theorem space_tail_le {joins : Nat → Bool} {c : Nat} {s : List Nat} (space : cpSpace c = true) :
    0 < spaceTail joins (c :: s) ∧ spaceTail joins (c :: s) ≤ (c :: s).length := by
  have some_ : 0 < scanRun cpSpace (c :: s) := scan_run_pos (by simpa using space)
  have all := scan_run_le cpSpace (c :: s)
  rw [spaceTail]
  rcases last : lastWhere newline ((c :: s).take (scanRun cpSpace (c :: s))) with _ | k
  · simp only
    split_ifs
    · omega
    · omega
  · rcases last_where_split last with ⟨before, x, after, shape, count, _, _⟩
    have taken := congrArg List.length shape
    rw [List.length_take, Nat.min_eq_left all, List.length_append, count, List.length_cons] at taken
    simp only
    omega

theorem no_stray {c : Nat} {s : List Nat} (calm : cpMark c = true → s.head?.any opens = true) :
    strayMark (c :: s) = false := by
  cases s with
  | nil => rfl
  | cons d s =>
      by_cases mark : cpMark c = true
      · have open_ : opens d = true := by simpa using calm mark
        by_cases next_mark : cpMark d = true
        · have space := mark_not_space next_mark
          have not_newline : newline d = false := by
            by_contra at_
            rw [newline_space (by simpa using at_)] at space
            cases space
          simp [strayMark, next_mark, not_newline]
        · have letter : cpLetter d = true := by simpa [opens, next_mark] using open_
          have not_newline : newline d = false := by
            by_contra at_
            have space := newline_space (by simpa using at_)
            rw [letter_not_space letter] at space
            cases space
          simp [strayMark, cpOther, letter, not_newline]
      · simp [strayMark, mark]

/-- What the letters leave to punctuation, digits and whitespace. -/
theorem letters_closed {c : Nat} {s : List Nat}
    (closed : (if leads c && !cpMark c then s else c :: s).head?.any opens = false) :
    tekkenLetters (c :: s) = 0 ∧ caseEnd (c :: s) = none ∧ caseBad (c :: s) = false := by
  have not_mark : cpMark c = false := by
    by_contra mark
    have mark' : cpMark c = true := by simpa using mark
    simp [mark', opens] at closed
  have calm := no_stray (c := c) (s := s) (by simp [not_mark])
  rw [tekken_letters_eq]
  by_cases lead : leads c = true
  · simp only [lead, not_mark, Bool.not_false, Bool.and_self, if_true] at closed
    have here : (c :: s).head?.any opens = false := by
      simp only [leads, Bool.and_eq_true, Bool.not_eq_true'] at lead
      simp [opens, not_mark, lead.1.1]
    rcases body_closed closed with ⟨low, up, good⟩
    rcases body_closed here with ⟨low', up', _⟩
    refine ⟨?_, ?_, ?_⟩
    · simp [lead, closed]
    · simp [caseEnd, lead, low, up, low', up']
    · simp [caseBad, lead, not_mark, good, calm]
  · simp only [lead, Bool.false_and, Bool.false_eq_true, if_false] at closed
    rcases body_closed closed with ⟨low, up, good⟩
    have closed' : opens c = false := by simpa using closed
    refine ⟨?_, ?_, ?_⟩
    · simp [lead, closed']
    · simp [caseEnd, lead, low, up]
    · simp [caseBad, lead, good, calm]

/-- A mark is both in upper and in lower case, so a run may start with it. -/
theorem up_low_mark {c : Nat} {s : List Nat} (mark : cpMark c = true) :
    upLow (c :: s) = some ((upLow s).elim 1 (· + 1)) := by
  have both := mark_both mark
  have here : lowHere (c :: s) = some (scanRun cpLetterLowerish s + 1) := by
    simp [lowHere, both.2, scan_run_cons]
  rw [up_low_cons, if_pos both.1, here]
  rcases rest : upLow s with _ | e
  · have stop : s.head?.any cpLetterLowerish = false := by
      cases s with
      | nil => rfl
      | cons d s =>
          by_contra low
          have low' : cpLetterLowerish d = true := by simpa using low
          rw [up_low_cons] at rest
          simp only [lowHere, List.head?_cons, Option.any_some, low', if_true] at rest
          split_ifs at rest
          simp at rest
    simp [scan_run_zero stop]
  · rfl

/-- The scan and the regex start the run of letters at one place. -/
theorem letters_open {c : Nat} {s : List Nat}
    (open_ : (if leads c && !cpMark c then s else c :: s).head?.any opens = true)
    (calm : cpMark c = true → s.head?.any opens = true) :
    ∃ lead, tekkenLetters (c :: s) = lead + greedyEnd ((c :: s).drop lead) ∧
      caseEnd (c :: s) = (bodyEnd ((c :: s).drop lead)).map (lead + ·) ∧
      caseBad (c :: s) = badRun ((c :: s).drop lead) ∧
      ((c :: s).drop lead).head?.any opens = true ∧ lead ≤ 1 := by
  have no_stray_ := no_stray calm
  by_cases mark : cpMark c = true
  · have both := mark_both mark
    have lead := mark_leads mark
    refine ⟨0, ?_, ?_, ?_, ?_, Nat.zero_le 1⟩
    · have run : greedyEnd (c :: s) = greedyEnd s + 1 := by
        simp only [greedyEnd, scan_run_cons, both.1, if_true, List.drop_succ_cons]
        omega
      rw [tekken_letters_eq, if_pos lead, if_pos (calm mark), List.drop_zero, run]
      omega
    · rw [caseEnd, if_pos lead, bodyEnd, List.drop_zero, up_low_mark mark]
      rcases upLow s with _ | e
      · simp
      · simp
    · simp [caseBad, mark, no_stray_]
    · simp [opens, mark]
  · by_cases lead : leads c = true
    · have not_mark : cpMark c = false := by simpa using mark
      have closed : (c :: s).head?.any opens = false := by
        simp only [leads, Bool.and_eq_true, Bool.not_eq_true'] at lead
        simp [opens, not_mark, lead.1.1]
      simp only [lead, not_mark, Bool.not_false, Bool.and_self, if_true] at open_
      rcases body_closed closed with ⟨low, up, _⟩
      refine ⟨1, ?_, ?_, ?_, ?_, Nat.le_refl 1⟩
      · rw [tekken_letters_eq, if_pos lead, if_pos open_]
        exact Nat.add_comm _ _
      · have shift : (fun e : Nat => 1 + e) = (· + 1) := by
          funext e
          exact Nat.add_comm 1 e
        rw [caseEnd, if_pos lead, low, up, Option.or_none, Option.or_none, bodyEnd, shift,
          Option.map_or]
        rfl
      · simp [caseBad, lead, not_mark, no_stray_]
      · exact open_
    · simp only [lead, Bool.false_and, Bool.false_eq_true, if_false] at open_
      refine ⟨0, ?_, ?_, ?_, ?_, Nat.zero_le 1⟩
      · have here : opens c = true := by simpa using open_
        rw [tekken_letters_eq, if_neg lead, if_pos here]
        exact (Nat.zero_add _).symm
      · simp [caseEnd, lead, bodyEnd]
      · simp [caseBad, lead, no_stray_]
      · exact open_

/-- A mark that no letter follows: the regex takes it alone, the scan takes it for
punctuation. -/
theorem letters_stray {c : Nat} {s : List Nat} (mark : cpMark c = true)
    (closed : s.head?.any opens = false) :
    tekkenLetters (c :: s) = 0 ∧ caseEnd (c :: s) = some 1 ∧
      ∃ k, punctRun cpOther newlineOrSlash (c :: s) = some k ∧
        (k = 1 ↔ caseBad (c :: s) = false) ∧ (contractionLen s ≠ 0 → k = 2) := by
  have lead := mark_leads mark
  rcases body_closed closed with ⟨low, up, _⟩
  have not_space : c ≠ cpSpaceChar := by
    intro space
    rw [space] at mark
    exact absurd mark (by decide)
  have one_mark : badRun (c :: s) = false := by
    have both := mark_both mark
    have run : scanRun cpLetterUpperish (c :: s) = 1 := by
      have stop : s.head?.any cpLetterUpperish = false := by
        by_contra next
        cases s with
        | nil => exact next rfl
        | cons d s =>
            have open_ := upperish_opens (c := d) (by simpa using next)
            simp [open_] at closed
      rw [scan_run_cons, if_pos both.1, scan_run_zero stop]
    simp [badRun, run, both.2]
  have run : punctRun cpOther newlineOrSlash (c :: s) =
      some (scanRun cpOther s + 1 + scanRun newlineOrSlash (s.drop (scanRun cpOther s))) := by
    simp [punctRun, not_space, mark_other mark, scan_run_cons]
  refine ⟨?_, ?_, _, run, ?_, ?_⟩
  · simp [tekken_letters_eq, lead, closed]
  · simp [caseEnd, lead, low, up_low_mark mark]
  · have bad : caseBad (c :: s) = strayMark (c :: s) := by
      simp [caseBad, mark, one_mark]
    rw [bad]
    cases s with
    | nil => simp [strayMark]
    | cons d s =>
        have d_closed : opens d = false := by simpa using closed
        have d_not_mark : cpMark d = false := by
          simp only [opens, Bool.or_eq_false_iff] at d_closed
          exact d_closed.2
        by_cases other : cpOther d = true
        · simp only [strayMark, mark, other, d_not_mark, scan_run_cons, if_true]
          simp
          omega
        · have none_ : scanRun cpOther (d :: s) = 0 := by simp [scan_run_cons, other]
          have not_slash : d ≠ cpSlash := by
            intro slash
            rw [slash] at other
            exact other (by decide)
          have same : newlineOrSlash d = newline d := by simp [newlineOrSlash, not_slash]
          rw [none_, List.drop_zero, scan_run_cons, same]
          by_cases line : newline d = true
          · simp [strayMark, mark, line]
          · simp [strayMark, mark, line, other]
  · intro contracted
    rcases contraction_len_cases s with none_ | ⟨x, rest, shape, letter, _, _⟩
    · exact absurd none_ contracted
    · have quote_other : cpOther cpQuote = true := by decide
      have letter_ : cpOther x = false ∧ newlineOrSlash x = false := by
        have all : ∀ y : Nat, y < 0x7b → asciiLetter y = true →
            cpOther y = false ∧ newlineOrSlash y = false := by
          set_option maxRecDepth 4000 in
          decide
        refine all x ?_ letter
        simp only [asciiLetter, Bool.or_eq_true, within_iff] at letter
        omega
      rw [shape, scan_run_cons, if_pos quote_other, scan_run_cons, letter_.1]
      simp [scan_run_cons, letter_.2]

end GridcoreRunner.Tok
