import GridcoreRunner.Tokenizer.CaseSplit

/-!
# The pieces of a split

A text is cut at the same places by the splitters and by the regular expressions of
their comments, but for tekken and llama4, which cut alike if and only if no match
starts at one of the two places of `caseBad`.
-/

namespace GridcoreRunner.Tok

set_option autoImplicit false

open Regex

/-! ## From one piece to the text -/

/-- One match next to one piece: `bad` tells where they differ. -/
def StepAgrees (next : List Nat → Nat) (r : Re Nat) (bad : List Nat → Bool) : Prop :=
  ∀ c s, ∃ m, r.first (c :: s) = some ((c :: s).drop m) ∧ 0 < m ∧ m ≤ (c :: s).length ∧
    0 < next (c :: s) ∧ next (c :: s) ≤ (c :: s).length ∧
    (m = next (c :: s) ↔ bad (c :: s) = false)

theorem split_pieces_rounds (next : List Nat → Nat) (s : List Nat) (rounds more : Nat)
    (enough : s.length ≤ rounds) (enough' : s.length ≤ more) :
    splitPieces next rounds s = splitPieces next more s := by
  induction rounds generalizing s more with
  | zero =>
      have empty : s = [] := List.length_eq_zero_iff.mp (Nat.le_zero.mp enough)
      subst empty
      cases more <;> rfl
  | succ rounds ih =>
      cases s with
      | nil => cases more <;> rfl
      | cons c s =>
          rcases more with _ | more
          · simp at enough'
          · simp only [splitPieces]
            congr 1
            apply ih
            · rw [List.length_drop]
              split_ifs <;> omega
            · rw [List.length_drop]
              split_ifs <;> omega

theorem pieces_nil (next : List Nat → Nat) : piecesOf next [] = [] := rfl

theorem pieces_cons {next : List Nat → Nat} {c : Nat} {s : List Nat} (some_ : 0 < next (c :: s)) :
    piecesOf next (c :: s) =
      (c :: s).take (next (c :: s)) :: piecesOf next ((c :: s).drop (next (c :: s))) := by
  have shorter : ((c :: s).drop (next (c :: s))).length ≤ s.length := by
    rw [List.length_drop, List.length_cons]
    omega
  have moves : next (c :: s) ≠ 0 := by omega
  simp only [piecesOf, List.length_cons, splitPieces, if_neg moves]
  rw [split_pieces_rounds next _ s.length _ shorter (Nat.le_refl _)]

theorem pieces_iff {next : List Nat → Nat} {r : Re Nat} {bad : List Nat → Bool}
    (agrees : StepAgrees next r bad) (s : List Nat) :
    piecesOf next s = r.split s ↔ ∀ x ∈ r.starts s, bad x = false := by
  induction length_ : s.length using Nat.strong_induction_on generalizing s with
  | _ n ih =>
      cases s with
      | nil => simp [pieces_nil]
      | cons c s =>
          rcases agrees c s with ⟨m, found, m_pos, m_le, n_pos, n_le, same⟩
          have shorter : ((c :: s).drop m).length ≤ s.length := by
            rw [List.length_drop, List.length_cons]
            omega
          have taken : s.length + 1 - ((c :: s).drop m).length = m := by
            rw [List.length_drop, List.length_cons] at *
            omega
          rw [pieces_cons n_pos, split_cons found shorter, starts_cons found shorter, taken,
            List.cons.injEq, List.forall_mem_cons, ← same]
          constructor
          · rintro ⟨head, tail⟩
            have count : m = next (c :: s) := by
              have lengths := congrArg List.length head
              rw [List.length_take, List.length_take] at lengths
              omega
            rw [← count] at tail
            exact ⟨count, (ih _ (by rw [← length_, List.length_cons]; omega) _ rfl).mp tail⟩
          · rintro ⟨count, rest⟩
            rw [← count]
            exact ⟨rfl, (ih _ (by rw [← length_, List.length_cons]; omega) _ rfl).mpr rest⟩

/-! ## tekken and llama4 -/

/-- `tekken_split_next` and `llama4_split_next`, with what follows a run of letters
and what a digit starts. -/
def casedNext (g digits : List Nat → Nat) (s : List Nat) : Nat :=
  if 0 < tekkenLetters s then tekkenLetters s + g (s.drop (tekkenLetters s))
  else if s.head?.any cpDigit then digits s
  else
    match punctRun cpOther newlineOrSlash s with
    | some j => j
    | none => spaceTail (fun _ => true) s

def casedRe (suffix digit : Re Nat) : Re Nat :=
  .alt (letters suffix) (.alt digit (.alt (punct cpOther newlineOrSlash) spaces))

theorem mark_not_digit {c : Nat} (mark : cpMark c = true) : cpDigit c = false := by
  have lead := mark_leads mark
  simp only [leads, Bool.and_eq_true, Bool.not_eq_true'] at lead
  exact lead.1.2

theorem opens_not_digit {c : Nat} (open_ : opens c = true) : cpDigit c = false := by
  by_contra digit
  have digit' : cpDigit c = true := by simpa using digit
  by_cases mark : cpMark c = true
  · rw [mark_not_digit mark] at digit'
    cases digit'
  · simp [opens, mark, digit_not_letter digit'] at open_

theorem cased_agrees {suffix digit : Re Nat} {g digits : List Nat → Nat} (takes : Takes suffix g)
    (quiet : ∀ x, g x ≤ contractionLen x) (not_one : ∀ x, g x ≠ 1)
    (digit_first : ∀ c s, digit.first (c :: s) =
      if cpDigit c then some ((c :: s).drop (digits (c :: s))) else none)
    (digit_some : ∀ c s, cpDigit c = true → 0 < digits (c :: s) ∧ digits (c :: s) ≤ (c :: s).length) :
    StepAgrees (casedNext g digits) (casedRe suffix digit) caseBad := by
  have inside : ∀ x : List Nat, g x ≤ x.length := by
    intro x
    rcases contraction_len_cases x with none_ | ⟨_, _, _, _, _, le⟩
    · have zero := quiet x
      omega
    · exact (quiet x).trans le
  intro c s
  rw [casedRe, first_alt, first_alt, first_alt, first_letters takes]
  by_cases open_ : (if leads c && !cpMark c then s else c :: s).head?.any opens = true
  · by_cases stray : cpMark c = true ∧ s.head?.any opens = false
    · -- a mark alone
      rcases stray with ⟨mark, closed⟩
      rcases letters_stray mark closed with ⟨none_, ends, k, run, one, two⟩
      have next : casedNext g digits (c :: s) = k := by
        simp only [casedNext, none_, Nat.lt_irrefl, if_false, List.head?_cons, Option.any_some,
          mark_not_digit mark, run]
        rfl
      have le := punct_run_le run
      have here := inside s
      refine ⟨1 + g s, ?_, by omega, ?_, ?_, ?_, ?_⟩
      · rw [ends, Option.map_some, Option.some_or, afterSuffix, List.drop_one, List.tail_cons]
      · rw [List.length_cons]
        omega
      · omega
      · omega
      · rw [next, ← one]
        by_cases contracted : contractionLen s = 0
        · have zero := quiet s
          constructor
          · intro same
            omega
          · intro same
            omega
        · have k_two := two contracted
          have g_not_one := not_one s
          constructor
          · intro same
            omega
          · intro same
            omega
    · -- a run of letters
      have calm : cpMark c = true → s.head?.any opens = true := by
        intro mark
        by_contra closed
        exact stray ⟨mark, by simpa using closed⟩
      rcases letters_open open_ calm with ⟨lead, count, ends, bad, body, lead_le⟩
      rcases body_end body with ⟨e, at_, some_, most, good_, bad_⟩
      have greedy_le := greedy_end_le ((c :: s).drop lead)
      have greedy_pos := greedy_end_pos body
      rw [List.length_drop] at greedy_le
      have next : casedNext g digits (c :: s) = tekkenLetters (c :: s) +
          g ((c :: s).drop (tekkenLetters (c :: s))) := by
        rw [casedNext, if_pos (by omega)]
      have next_in := inside ((c :: s).drop (tekkenLetters (c :: s)))
      have m_in := inside ((c :: s).drop (lead + e))
      rw [List.length_drop] at next_in m_in
      refine ⟨lead + e + g ((c :: s).drop (lead + e)), ?_, by omega, by omega, by omega, by omega, ?_⟩
      · rw [ends, at_, Option.map_some, Option.map_some, Option.some_or, afterSuffix]
      · rw [next, bad, count]
        cases is_bad : badRun ((c :: s).drop lead) with
        | false =>
            rw [good_ is_bad]
            simp
        | true =>
            rcases bad_ is_bad with ⟨less, plain⟩
            rw [List.drop_drop] at plain
            have zero := quiet ((c :: s).drop (lead + e))
            rw [plain] at zero
            constructor
            · intro same
              omega
            · intro same
              cases same
  · -- a digit, punctuation or whitespace
    have closed : (if leads c && !cpMark c then s else c :: s).head?.any opens = false := by
      simpa using open_
    rcases letters_closed closed with ⟨none_, no_end, good⟩
    have skip : casedNext g digits (c :: s) = if cpDigit c then digits (c :: s) else
        match punctRun cpOther newlineOrSlash (c :: s) with
        | some j => j
        | none => spaceTail (fun _ => true) (c :: s) := by
      simp only [casedNext, none_, Nat.lt_irrefl, if_false]
      rfl
    rw [no_end, skip, digit_first, first_punct (by decide), good]
    by_cases digit_ : cpDigit c = true
    · have bounds := digit_some c s digit_
      rw [if_pos digit_, if_pos digit_]
      exact ⟨_, rfl, bounds.1, bounds.2, bounds.1, bounds.2, by simp⟩
    · rw [if_neg digit_, if_neg digit_]
      rcases run : punctRun cpOther newlineOrSlash (c :: s) with _ | j
      · have not_letter : cpLetter c = false := by
          by_contra letter
          have letter' : cpLetter c = true := by simpa using letter
          have no_lead : leads c = false := by simp [leads, letter']
          simp [no_lead, opens, letter'] at closed
        have space : cpSpace c = true :=
          space_of_rest not_letter (by simpa using digit_) (punct_run_none run)
        have bounds := @space_tail_le (fun _ => true) _ s space
        refine ⟨_, ?_, bounds.1, bounds.2, bounds.1, bounds.2, by simp⟩
        rw [first_spaces space]
        rfl
      · have bounds := punct_run_le run
        exact ⟨j, rfl, bounds.1, bounds.2, bounds.1, bounds.2, by simp⟩

theorem tekken_agrees : StepAgrees tekkenSplitNext tekkenRe caseBad := by
  have next : tekkenSplitNext = casedNext (fun _ => 0) (fun _ => 1) := rfl
  have re : tekkenRe = casedRe .eps (.cls cpDigit) := rfl
  rw [next, re]
  apply cased_agrees
  · intro x
    rw [first_eps, List.drop_zero]
  · intro x
    exact Nat.zero_le _
  · intro x
    exact Nat.zero_ne_one
  · intro c s
    rw [first_cls_cons, List.drop_one, List.tail_cons]
  · intro c s _
    rw [List.length_cons]
    omega

theorem llama4_agrees : StepAgrees llama4SplitNext llama4Re caseBad := by
  have next : llama4SplitNext = casedNext contractionLen (fun s => min (scanRun cpDigit s) 3) := rfl
  have re : llama4Re = casedRe (.alt (contractions caseless) .eps) (.rep cpDigit 1 (some 3)) := rfl
  rw [next, re]
  apply cased_agrees
  · intro x
    rw [first_alt, first_caseless, first_eps]
    by_cases plain : contractionLen x = 0
    · simp [plain]
    · simp [plain]
  · intro x
    exact Nat.le_refl _
  · intro x
    rcases contraction_len_cases x with none_ | ⟨_, _, _, _, two, _⟩
    · omega
    · omega
  · intro c s
    rw [first_digits 3 (by decide)]
    rfl
  · intro c s digit
    have some_ : 0 < scanRun cpDigit (c :: s) := scan_run_pos (by simpa using digit)
    have all := scan_run_le cpDigit (c :: s)
    omega

/-! ## The regexes without cases -/

theorem contraction_by_le (fold : Nat → Nat) (s : List Nat) : contractionBy fold s ≤ s.length := by
  rcases s with _ | ⟨c, _ | ⟨x, _ | ⟨y, s⟩⟩⟩
  · exact Nat.le_refl 0
  · exact Nat.zero_le 1
  · -- two letters need a third character
    have short : contractionBy fold [c, x] ≤ 2 := by
      simp only [contractionBy]
      split_ifs with quote one two
      · exact Nat.zero_le 2
      · exact Nat.le_refl 2
      · simp at two
      · exact Nat.zero_le 2
    simpa using short
  · rw [contractionBy]
    simp only [List.length_cons]
    split_ifs <;> omega

theorem pre_bounds (maxDigits : Nat) (positive : 0 < maxDigits) (c : Nat) (s : List Nat) :
    0 < preSplitNext maxDigits (c :: s) ∧ preSplitNext maxDigits (c :: s) ≤ (c :: s).length := by
  have contracted := contraction_by_le (· ||| 32) (c :: s)
  rw [← contraction_len_by] at contracted
  rw [preSplitNext]
  by_cases plain : contractionLen (c :: s) = 0
  · rw [if_neg (not_not.mpr plain)]
    by_cases lead : (c :: s).head?.any leads = true ∧ (c :: s).tail.head?.any cpLetter = true
    · have run := scan_run_le cpLetter s
      rw [if_pos lead, List.tail_cons, List.length_cons]
      omega
    rw [if_neg lead]
    by_cases letter : (c :: s).head?.any cpLetter = true
    · rw [if_pos letter]
      exact ⟨scan_run_pos letter, scan_run_le cpLetter _⟩
    rw [if_neg letter]
    by_cases digit : (c :: s).head?.any cpDigit = true
    · have some_ := scan_run_pos digit
      have all := scan_run_le cpDigit (c :: s)
      rw [if_pos digit]
      omega
    rw [if_neg digit]
    rcases run : punctRun cpOther newline (c :: s) with _ | j
    · have space : cpSpace c = true :=
        space_of_rest (by simpa using letter) (by simpa using digit) (punct_run_none run)
      exact space_tail_le space
    · exact punct_run_le run
  · rw [if_pos plain]
    exact ⟨Nat.pos_of_ne_zero plain, contracted⟩

theorem pre_agrees (maxDigits : Nat) (positive : 0 < maxDigits) :
    StepAgrees (preSplitNext maxDigits) (preRe maxDigits) fun _ => false := by
  intro c s
  have bounds := pre_bounds maxDigits positive c s
  exact ⟨_, pre_first maxDigits positive c s, bounds.1, bounds.2, bounds.1, bounds.2, by simp⟩

theorem gpt2_bounds (c : Nat) (s : List Nat) :
    0 < gpt2SplitNext (c :: s) ∧ gpt2SplitNext (c :: s) ≤ (c :: s).length := by
  by_cases plain : gpt2Contraction (c :: s) = 0
  · by_cases lead : c = cpSpaceChar ∧ s.head?.any (fun c => !cpSpace c) = true
    · rcases lead with ⟨here, next⟩
      subst here
      rcases s with _ | ⟨d, s⟩
      · cases next
      · have run := scan_run_le (ofClass (cpClass d)) (d :: s)
        rw [gpt2_next_lead plain (by simpa [cpSpace] using next), List.length_cons]
        omega
    · rw [gpt2_next_plain plain lead]
      have run := scan_run_le (ofClass (cpClass c)) (c :: s)
      have spaces := scan_run_le cpSpace (c :: s)
      by_cases space : cpClass c = .space
      · have some_ : 0 < scanRun cpSpace (c :: s) := scan_run_pos (by simp [cpSpace, space])
        rw [if_neg (not_not.mpr space)]
        split_ifs
        · omega
        · omega
      · have some_ : 0 < scanRun (ofClass (cpClass c)) (c :: s) := scan_run_pos (by simp [ofClass])
        rw [if_pos space]
        omega
  · have contracted := contraction_by_le id (c :: s)
    rw [← gpt2_contraction_by] at contracted
    rw [gpt2SplitNext, if_pos plain]
    exact ⟨Nat.pos_of_ne_zero plain, contracted⟩

theorem gpt2_agrees : StepAgrees gpt2SplitNext gpt2Re fun _ => false := by
  intro c s
  have bounds := gpt2_bounds c s
  exact ⟨_, gpt2_first c s, bounds.1, bounds.2, bounds.1, bounds.2, by simp⟩

end GridcoreRunner.Tok
