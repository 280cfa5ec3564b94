import Mathlib.Tactic.IntervalCases
import GridcoreRunner.Tokenizer.Split

/-!
# Scanning as a regular expression matches

What the parts of the regular expressions match first, in the counts the splitters
compute, and the splitters of GPT-2, of the newer regexes and of tekken and llama4,
one piece at a time.
-/

namespace GridcoreRunner.Tok

set_option autoImplicit false

open Regex

/-! ## Runs -/

theorem drop_scan_run (p : Nat → Bool) (s : List Nat) : s.drop (scanRun p s) = s.dropWhile p := by
  induction s with
  | nil => rfl
  | cons c s ih =>
      by_cases taken : p c = true
      · simpa [scanRun, taken] using ih
      · simp [scanRun, taken]

@[simp] theorem scan_run_nil (p : Nat → Bool) : scanRun p [] = 0 := rfl

theorem scan_run_cons (p : Nat → Bool) (c : Nat) (s : List Nat) :
    scanRun p (c :: s) = if p c then scanRun p s + 1 else 0 := by
  by_cases taken : p c = true
  · simp [scanRun, taken]
  · simp [scanRun, taken]

theorem scan_run_le (p : Nat → Bool) (s : List Nat) : scanRun p s ≤ s.length :=
  (List.takeWhile_prefix p).length_le

theorem first_star_run (p : Nat → Bool) (s : List Nat) :
    (Re.rep p 0 none).first s = some (s.drop (scanRun p s)) := by
  rw [first_star, drop_scan_run]

theorem first_plus_run (p : Nat → Bool) (s : List Nat) :
    (Re.rep p 1 none).first s = if s.head?.any p then some (s.drop (scanRun p s)) else none := by
  cases s with
  | nil => rfl
  | cons c s =>
      rw [first_plus]
      by_cases taken : p c = true
      · simp [taken, scan_run_cons, drop_scan_run]
      · simp [taken]

/-! ## Classes -/

theorem newline_space {c : Nat} (at_ : newline c = true) : cpSpace c = true := by
  simp only [newline, Bool.or_eq_true, beq_iff_eq] at at_
  rcases at_ with here | here
  · subst here
    decide
  · subst here
    decide

theorem letter_not_space {c : Nat} (at_ : cpLetter c = true) : cpSpace c = false := by
  unfold cpLetter at at_
  split_ifs at at_ with space
  simpa [cpSpace] using space

theorem digit_not_space {c : Nat} (at_ : cpDigit c = true) : cpSpace c = false := by
  simp only [cpDigit, within, Bool.and_eq_true, decide_eq_true_eq] at at_
  rcases at_ with ⟨low, high⟩
  interval_cases c <;> decide

theorem digit_not_letter {c : Nat} (at_ : cpDigit c = true) : cpLetter c = false := by
  simp only [cpDigit, within, Bool.and_eq_true, decide_eq_true_eq] at at_
  rcases at_ with ⟨low, high⟩
  interval_cases c <;> decide

/-! ## Whitespace -/

theorem last_newline_none_head {s : List Nat}
    (none_ : lastWhere newline (s.take (scanRun cpSpace s)) = none) : s.head?.any newline = false := by
  cases s with
  | nil => rfl
  | cons c s =>
      by_cases space : cpSpace c = true
      · rw [scan_run_cons, if_pos space, List.take_succ_cons, lastWhere] at none_
        split at none_
        · cases none_
        · split_ifs at none_ with at_
          simpa using at_
      · have not_newline : newline c = false := by
          by_contra at_
          exact space (newline_space (by simpa using at_))
        simpa using not_newline

theorem dropWhile_of_head {p : Nat → Bool} {s : List Nat} (head : s.head?.any p = false) :
    s.dropWhile p = s := by
  cases s with
  | nil => rfl
  | cons c s =>
      have not_taken : p c = false := by simpa using head
      simp [not_taken]

theorem first_newlines (s : List Nat) :
    (Re.seq (.rep cpSpace 0 none) (.rep newline 1 none)).first s =
      (lastWhere newline (s.take (scanRun cpSpace s))).map fun k => s.drop (k + 1) := by
  induction s with
  | nil => rfl
  | cons c s ih =>
      rw [first_seq_star, first_plus, ih]
      by_cases space : cpSpace c = true
      · rw [if_pos space, scan_run_cons, if_pos space, List.take_succ_cons, lastWhere]
        rcases last : lastWhere newline (s.take (scanRun cpSpace s)) with _ | k
        · by_cases at_ : newline c = true
          · simp [at_, dropWhile_of_head (last_newline_none_head last)]
          · simp [at_]
        · simp
      · have not_newline : newline c = false := by
          by_contra at_
          exact space (newline_space (by simpa using at_))
        simp [space, not_newline, scan_run_cons, lastWhere]

/-- A whitespace run before `\S`, or up to the end, after its first character. -/
theorem first_kept_space (s : List Nat) :
    (Re.seq (.rep cpSpace 0 none) (.notAhead fun c => !cpSpace c)).first s =
      if s.drop (scanRun cpSpace s) = [] then some []
      else if scanRun cpSpace s = 0 then none
      else some (s.drop (scanRun cpSpace s - 1)) := by
  induction s with
  | nil => rfl
  | cons c s ih =>
      rw [first_seq_star, ih, first_not_ahead, scan_run_cons]
      by_cases space : cpSpace c = true
      · rw [if_pos space, if_pos space, List.drop_succ_cons]
        by_cases all : s.drop (scanRun cpSpace s) = []
        · simp [all]
        · rw [if_neg all, if_neg all]
          rcases count : scanRun cpSpace s with _ | k
          · simp [space]
          · simp
      · simp [space]

theorem first_trailing {c : Nat} {s : List Nat} (space : cpSpace c = true) :
    trailing.first (c :: s) =
      some ((c :: s).drop
        (if ((c :: s).drop (scanRun cpSpace (c :: s))).head?.any (fun _ => true) ∧
            1 < scanRun cpSpace (c :: s) then scanRun cpSpace (c :: s) - 1
          else scanRun cpSpace (c :: s))) := by
  rw [trailing, first_alt, first_seq_plus, first_plus, if_pos space, if_pos space,
    first_kept_space, scan_run_cons, if_pos space, List.drop_succ_cons]
  rcases rest : s.drop (scanRun cpSpace s) with _ | ⟨d, rest'⟩
  · simp [rest]
  · rw [if_neg (by simp)]
    by_cases none_ : scanRun cpSpace s = 0
    · have head : s.dropWhile cpSpace = s := by
        rw [← drop_scan_run, none_, List.drop_zero]
      simp [none_, head]
    · obtain ⟨k, count⟩ := Nat.exists_eq_succ_of_ne_zero none_
      simp [count]

theorem first_spaces {c : Nat} {s : List Nat} (space : cpSpace c = true) :
    spaces.first (c :: s) = some ((c :: s).drop (spaceTail (fun _ => true) (c :: s))) := by
  rw [spaces, first_alt, first_newlines, first_trailing space, spaceTail]
  rcases lastWhere newline ((c :: s).take (scanRun cpSpace (c :: s))) with _ | k
  · rfl
  · rfl

/-! ## Punctuation -/

theorem first_punct {p tail : Nat → Bool} (not_space : p cpSpaceChar = false) (s : List Nat) :
    (punct p tail).first s = (punctRun p tail s).map fun k => s.drop k := by
  have star : ∀ t, (Re.rep tail 0 none).first t ≠ none := by
    intro t
    rw [first_star]
    simp
  have body : ∀ t : List Nat, (Re.seq (.rep p 1 none) (.rep tail 0 none)).first t =
      if t.head?.any p then
        some ((t.drop (scanRun p t)).drop (scanRun tail (t.drop (scanRun p t))))
      else none := by
    intro t
    rw [first_seq _ _ _ star, first_plus_run]
    split_ifs
    · simp [first_star_run]
    · rfl
  cases s with
  | nil => simp [punct, first_seq_opt_nil, body, punctRun]
  | cons c s =>
      rw [punct, first_seq_opt_cons, body, body, punctRun]
      by_cases space : c = cpSpaceChar
      · subst space
        by_cases next : s.head?.any p = true
        · have shift : 1 + scanRun p s = scanRun p s + 1 := Nat.add_comm _ _
          simp [exactly, next, List.drop_drop, shift, Nat.add_right_comm _ 1]
        · simp [exactly, next, not_space]
      · by_cases here : p c = true
        · simp [exactly, space, here, List.drop_drop]
        · simp [exactly, space, here]

theorem punct_run_none {p tail : Nat → Bool} {c : Nat} {s : List Nat} (none_ : punctRun p tail (c :: s) = none) :
    p c = false := by
  unfold punctRun at none_
  by_cases lead : (c :: s).head? = some cpSpaceChar ∧ (c :: s).tail.head?.any p = true
  · simp only [if_pos lead] at none_
    have next : ((c :: s).drop 1).head?.any p = true := lead.2
    rw [if_pos next] at none_
    cases none_
  · simp only [if_neg lead, List.drop_zero] at none_
    split_ifs at none_ with here
    simpa using here

/-! ## Contractions -/

/-- Setting the bit of the lower case. -/
theorem lower_iff {x : Nat} (low : 0x61 ≤ x) (high : x ≤ 0x7a) (c : Nat) :
    caseless x c = decide (c ||| 32 = x) := by
  have small : ∀ y : Nat, y < 0x7b → 0x61 ≤ y → ∀ d : Nat, d < 0x80 →
      caseless y d = decide (d ||| 32 = y) := by
    set_option maxRecDepth 4000 in
    decide
  by_cases ascii : c < 0x80
  · exact small x (by omega) low c ascii
  · have above : c ≤ c ||| 32 := Nat.left_le_or
    have left : (c == x) = false := beq_false_of_ne (by omega)
    have right : (c == x - 32) = false := beq_false_of_ne (by omega)
    have apart : decide (c ||| 32 = x) = false := decide_eq_false (by omega)
    rw [caseless, left, right, apart]
    rfl

/-- Both families' contractions, the letters read through `fold`. -/
def contractionBy (fold : Nat → Nat) : List Nat → Nat
  | c :: x :: s =>
      if c ≠ cpQuote then 0
      else
        let b := match s with
          | [] => 0
          | y :: _ => fold y
        if fold x = 0x73 ∨ fold x = 0x74 ∨ fold x = 0x6d ∨ fold x = 0x64 then 2
        else if (fold x = 0x72 ∧ b = 0x65) ∨ (fold x = 0x76 ∧ b = 0x65) ∨ (fold x = 0x6c ∧ b = 0x6c)
        then 3
        else 0
  | _ => 0

theorem contraction_len_by (s : List Nat) : contractionLen s = contractionBy (· ||| 32) s := by
  rcases s with _ | ⟨c, _ | ⟨x, _ | ⟨y, s⟩⟩⟩ <;> rfl

theorem gpt2_contraction_by (s : List Nat) : gpt2Contraction s = contractionBy id s := by
  rcases s with _ | ⟨c, _ | ⟨x, _ | ⟨y, s⟩⟩⟩ <;> rfl

theorem first_contractions {char : Nat → Nat → Bool} {fold : Nat → Nat}
    (reads : ∀ x, 0x61 ≤ x → x ≤ 0x7a → ∀ c, char x c = decide (fold c = x)) (s : List Nat) :
    (contractions char).first s =
      if contractionBy fold s = 0 then none else some (s.drop (contractionBy fold s)) := by
  rcases s with _ | ⟨c, _ | ⟨x, s⟩⟩
  · simp [contractions, contractionBy]
  · simp [contractions, contractionBy]
  · by_cases quoted : c = cpQuote
    · subst quoted
      have here : exactly cpQuote cpQuote = true := rfl
      simp only [contractions, first_alt, first_seq_cls_cons, here, if_true, first_cls_cons,
        reads 0x73 (by decide) (by decide), reads 0x74 (by decide) (by decide),
        reads 0x72 (by decide) (by decide), reads 0x76 (by decide) (by decide),
        reads 0x6d (by decide) (by decide), reads 0x6c (by decide) (by decide),
        reads 0x64 (by decide) (by decide), decide_eq_true_eq, contractionBy, ne_eq, not_true,
        if_false]
      -- one letter after the quote decides between the seven
      generalize fold x = a
      by_cases s_ : a = 0x73
      · simp [s_]
      by_cases t_ : a = 0x74
      · simp [t_]
      by_cases m_ : a = 0x6d
      · simp [m_]
      by_cases d_ : a = 0x64
      · simp [d_]
      rcases s with _ | ⟨y, s⟩
      · simp [s_, t_, m_, d_]
      · simp only [first_cls_cons, reads 0x65 (by decide) (by decide),
          reads 0x6c (by decide) (by decide), decide_eq_true_eq]
        by_cases r_ : a = 0x72
        · by_cases e_ : fold y = 0x65 <;> simp [r_, e_]
        by_cases v_ : a = 0x76
        · by_cases e_ : fold y = 0x65 <;> simp [v_, e_]
        by_cases l_ : a = 0x6c
        · by_cases e_ : fold y = 0x6c <;> simp [l_, e_]
        simp [s_, t_, m_, d_, r_, v_, l_]
    · have absent : exactly cpQuote c = false := by simp [exactly, quoted]
      simp [contractions, absent, contractionBy, quoted]

theorem first_caseless (s : List Nat) :
    (contractions caseless).first s =
      if contractionLen s = 0 then none else some (s.drop (contractionLen s)) := by
  rw [contraction_len_by]
  exact first_contractions (fun x low high c => lower_iff low high c) s

theorem first_exactly (s : List Nat) :
    (contractions exactly).first s =
      if gpt2Contraction s = 0 then none else some (s.drop (gpt2Contraction s)) := by
  rw [gpt2_contraction_by]
  exact first_contractions (fun x _ _ c => rfl) s

/-! ## The newer regexes -/

theorem first_lead_letters (s : List Nat) :
    (Re.seq (.opt leads) (.rep cpLetter 1 none)).first s =
      if s.head?.any leads ∧ s.tail.head?.any cpLetter then
        some (s.drop (1 + scanRun cpLetter s.tail))
      else if s.head?.any cpLetter then some (s.drop (scanRun cpLetter s)) else none := by
  cases s with
  | nil => rfl
  | cons c s =>
      rw [first_seq_opt_cons, first_plus_run, first_plus_run]
      by_cases lead : leads c = true
      · have not_letter : cpLetter c = false := by
          simp only [leads, Bool.and_eq_true, Bool.not_eq_true'] at lead
          exact lead.1.1
        by_cases next : s.head?.any cpLetter = true
        · have shift : 1 + scanRun cpLetter s = scanRun cpLetter s + 1 := Nat.add_comm _ _
          simp [lead, next, shift]
        · simp [lead, next, not_letter]
      · simp [lead]

theorem first_digits (most : Nat) (positive : 0 < most) (s : List Nat) :
    (Re.rep cpDigit 1 (some most)).first s =
      if s.head?.any cpDigit then some (s.drop (min (scanRun cpDigit s) most)) else none := by
  rw [first_bounded, Nat.min_comm]
  cases s with
  | nil => simp
  | cons c s =>
      by_cases digit : cpDigit c = true
      · have some_ : 1 ≤ min (scanRun cpDigit (c :: s)) most := by
          rw [scan_run_cons, if_pos digit]
          omega
        simp only [scanRun] at some_ ⊢
        rw [if_pos some_]
        simp [digit]
      · simp [digit]

/-- What is no letter, digit or punctuation is whitespace. -/
theorem space_of_rest {c : Nat} (letter : cpLetter c = false) (digit : cpDigit c = false)
    (other : cpOther c = false) : cpSpace c = true := by
  simpa [cpOther, letter, digit] using other

theorem pre_first (maxDigits : Nat) (positive : 0 < maxDigits) (c : Nat) (s : List Nat) :
    (preRe maxDigits).first (c :: s) = some ((c :: s).drop (preSplitNext maxDigits (c :: s))) := by
  rw [preRe, first_alt, first_alt, first_alt, first_alt, first_caseless, first_lead_letters,
    first_digits maxDigits positive, first_punct (by decide), preSplitNext]
  by_cases contracted : contractionLen (c :: s) = 0
  · rw [if_pos contracted, if_neg (not_not.mpr contracted), Option.none_or]
    by_cases lead : (c :: s).head?.any leads = true ∧ (c :: s).tail.head?.any cpLetter = true
    · rw [if_pos lead, if_pos lead]
      rfl
    by_cases letter : (c :: s).head?.any cpLetter = true
    · rw [if_neg lead, if_neg lead, if_pos letter, if_pos letter]
      rfl
    by_cases digit : (c :: s).head?.any cpDigit = true
    · rw [if_neg lead, if_neg lead, if_neg letter, if_neg letter, if_pos digit, if_pos digit]
      rfl
    rw [if_neg lead, if_neg lead, if_neg letter, if_neg letter, if_neg digit, if_neg digit]
    rcases run : punctRun cpOther newline (c :: s) with _ | j
    · have space : cpSpace c = true :=
        space_of_rest (by simpa using letter) (by simpa using digit) (punct_run_none run)
      simp [first_spaces space]
    · rfl
  · rw [if_neg contracted, if_pos contracted]
    rfl

/-! ## The GPT-2 regex -/

theorem first_class_run (k : CpClass) (s : List Nat) (not_space : k ≠ .space) :
    (Re.seq (.opt (exactly cpSpaceChar)) (.rep (ofClass k) 1 none)).first s =
      if s.head? = some cpSpaceChar ∧ s.tail.head?.any (ofClass k) then
        some (s.drop (1 + scanRun (ofClass k) s.tail))
      else if s.head?.any (ofClass k) then some (s.drop (scanRun (ofClass k) s)) else none := by
  cases s with
  | nil => rfl
  | cons c s =>
      rw [first_seq_opt_cons, first_plus_run, first_plus_run]
      by_cases space : c = cpSpaceChar
      · subst space
        have other : ofClass k cpSpaceChar = false := by
          have class_ : cpClass cpSpaceChar = .space := rfl
          simpa [ofClass, class_] using fun same => not_space same.symm
        by_cases next : s.head?.any (ofClass k) = true
        · have shift : 1 + scanRun (ofClass k) s = scanRun (ofClass k) s + 1 := Nat.add_comm _ _
          simp [exactly, next, shift]
        · simp [exactly, next, other]
      · simp [exactly, space]

/-- The three runs of one class, in their order. -/
def classRuns : Re Nat :=
  let run (k : CpClass) : Re Nat := .seq (.opt (exactly cpSpaceChar)) (.rep (ofClass k) 1 none)
  .alt (run .letter) (.alt (run .digit) (.alt (run .other) trailing))

theorem first_class_runs {k : CpClass} (not_space : k ≠ .space) {c : Nat} {s : List Nat} {n : Nat}
    (alone : ∀ k', k' ≠ .space →
      (Re.seq (.opt (exactly cpSpaceChar)) (.rep (ofClass k') 1 none)).first (c :: s) =
        if k' = k then some ((c :: s).drop n) else none) :
    classRuns.first (c :: s) = some ((c :: s).drop n) := by
  rw [classRuns, first_alt, first_alt, first_alt, alone .letter (by decide),
    alone .digit (by decide), alone .other (by decide)]
  cases k with
  | letter => rfl
  | digit => rfl
  | other => rfl
  | space => exact absurd rfl not_space

theorem first_class_runs_space {c : Nat} {s : List Nat}
    (alone : ∀ k', k' ≠ .space →
      (Re.seq (.opt (exactly cpSpaceChar)) (.rep (ofClass k') 1 none)).first (c :: s) = none) :
    classRuns.first (c :: s) = trailing.first (c :: s) := by
  rw [classRuns, first_alt, first_alt, first_alt, alone .letter (by decide),
    alone .digit (by decide), alone .other (by decide)]
  rfl

theorem head_any_true (s : List Nat) : s.head?.any (fun _ => true) = true ↔ s ≠ [] := by
  cases s <;> simp

theorem gpt2_next_lead {d : Nat} {s : List Nat} (plain : gpt2Contraction (cpSpaceChar :: d :: s) = 0)
    (not_space : cpClass d ≠ .space) :
    gpt2SplitNext (cpSpaceChar :: d :: s) = 1 + scanRun (ofClass (cpClass d)) (d :: s) := by
  have lead : (cpSpaceChar :: d :: s).head? = some cpSpaceChar ∧
      (cpSpaceChar :: d :: s).tail.head?.any (fun c => !cpSpace c) = true := by
    simpa [cpSpace] using not_space
  rw [gpt2SplitNext, if_neg (not_not.mpr plain)]
  simp only [if_pos lead]
  exact if_pos not_space

theorem gpt2_next_plain {c : Nat} {s : List Nat} (plain : gpt2Contraction (c :: s) = 0)
    (no_lead : ¬(c = cpSpaceChar ∧ s.head?.any (fun c => !cpSpace c) = true)) :
    gpt2SplitNext (c :: s) =
      if cpClass c ≠ .space then scanRun (ofClass (cpClass c)) (c :: s)
      else if scanRun cpSpace (c :: s) < (c :: s).length ∧ 1 < scanRun cpSpace (c :: s) then
        scanRun cpSpace (c :: s) - 1
      else scanRun cpSpace (c :: s) := by
  have no_lead' : ¬((c :: s).head? = some cpSpaceChar ∧
      (c :: s).tail.head?.any (fun c => !cpSpace c) = true) := by
    simpa using no_lead
  rw [gpt2SplitNext, if_neg (not_not.mpr plain)]
  simp only [if_neg no_lead', List.drop_zero, Nat.zero_add]
  rfl

theorem gpt2_first (c : Nat) (s : List Nat) :
    gpt2Re.first (c :: s) = some ((c :: s).drop (gpt2SplitNext (c :: s))) := by
  have runs : gpt2Re = .alt (contractions exactly) classRuns := rfl
  rw [runs, first_alt, first_exactly]
  by_cases plain : gpt2Contraction (c :: s) = 0
  · rw [if_pos plain, Option.none_or]
    have space_class : cpClass cpSpaceChar = .space := rfl
    by_cases lead : c = cpSpaceChar ∧ s.head?.any (fun c => !cpSpace c) = true
    · -- a leading space, and the class of what follows it
      rcases lead with ⟨here, next⟩
      subst here
      rcases s with _ | ⟨d, s⟩
      · cases next
      · have not_space : cpClass d ≠ .space := by simpa [cpSpace] using next
        rw [gpt2_next_lead plain not_space]
        apply first_class_runs not_space
        intro k' k_not_space
        rw [first_class_run k' _ k_not_space]
        by_cases same : k' = cpClass d
        · subst same
          have here : ofClass (cpClass d) d = true := by simp [ofClass]
          simp [here]
        · have differ : ofClass k' d = false := by
            simpa [ofClass] using fun at_ => same at_.symm
          have space_differ : ofClass k' cpSpaceChar = false := by
            simpa [ofClass, space_class] using fun at_ => k_not_space at_.symm
          simp [same, differ, space_differ]
    · rw [gpt2_next_plain plain lead]
      by_cases space : cpClass c = .space
      · rw [if_neg (not_not.mpr space), first_class_runs_space, first_trailing]
        · have same : (scanRun cpSpace (c :: s) < (c :: s).length) ↔
              ((c :: s).drop (scanRun cpSpace (c :: s))).head?.any (fun _ => true) = true := by
            rw [head_any_true, ne_eq, List.drop_eq_nil_iff, not_le]
          simp only [same]
        · simpa [cpSpace] using space
        · intro k' k_not_space
          rw [first_class_run k' _ k_not_space]
          have here : ofClass k' c = false := by
            simpa [ofClass, space] using fun at_ => k_not_space at_.symm
          have next : ¬(c = cpSpaceChar ∧ s.head?.any (ofClass k') = true) := by
            rintro ⟨at_space, joins⟩
            apply lead
            refine ⟨at_space, ?_⟩
            rcases s with _ | ⟨d, s⟩
            · cases joins
            · have class_d : cpClass d = k' := by simpa [ofClass] using joins
              simpa [cpSpace, class_d] using k_not_space
          simp only [List.head?_cons, List.tail_cons, Option.some.injEq, if_neg next]
          simp [here]
      · rw [if_pos space]
        have not_space_char : c ≠ cpSpaceChar := by
          intro here
          rw [here] at space
          exact space rfl
        apply first_class_runs space
        intro k' k_not_space
        rw [first_class_run k' _ k_not_space]
        by_cases same : k' = cpClass c
        · simp [not_space_char, same, ofClass]
        · have differ : ofClass k' c = false := by
            simpa [ofClass] using fun at_ => same at_.symm
          simp [not_space_char, same, differ]
  · rw [if_neg plain, gpt2SplitNext, if_pos plain]
    rfl

end GridcoreRunner.Tok
