import GridcoreRunner.Tokenizer.SplitPieces

/-!
# Passes in front of a regular expression

smollm and afmoe cut a text into fragments before their regular expression reads
it; the code folds the passes into one scanner. A scanner that answers on a
fragment, whatever follows it, as the passes do on the fragment alone cuts the text
fragment by fragment.
-/

namespace GridcoreRunner.Tok

set_option autoImplicit false

open Regex

/-! ## Fragments -/

/-- A piece takes at least one code point. -/
def stepOf (next : List Nat → Nat) (s : List Nat) : Nat := if next s = 0 then 1 else next s

theorem pieces_step (next : List Nat → Nat) (c : Nat) (s : List Nat) :
    piecesOf next (c :: s) =
      (c :: s).take (stepOf next (c :: s)) :: piecesOf next ((c :: s).drop (stepOf next (c :: s))) := by
  have some_ : 0 < stepOf next (c :: s) := by
    rw [stepOf]
    split_ifs
    · exact Nat.one_pos
    · omega
  have shorter : ((c :: s).drop (stepOf next (c :: s))).length ≤ s.length := by
    rw [List.length_drop, List.length_cons]
    omega
  simp only [piecesOf, List.length_cons, splitPieces]
  change _ :: splitPieces next s.length ((c :: s).drop (stepOf next (c :: s))) = _
  rw [split_pieces_rounds next _ s.length _ shorter (Nat.le_refl _)]
  rfl

/-- The scanner cuts the fragments of a class as `cut` does, in front of `rest`. -/
def CutsAs (next : List Nat → Nat) (cut : List Nat → List (List Nat)) (q : Nat → Bool)
    (rest : List Nat) : Prop :=
  cut [] = [] ∧ ∀ c x, (c :: x).all q = true → ∃ n,
    cut (c :: x) = (c :: x).take n :: cut ((c :: x).drop n) ∧ 0 < n ∧ n ≤ (c :: x).length ∧
      stepOf next (c :: x ++ rest) = n

theorem pieces_append {next : List Nat → Nat} {cut : List Nat → List (List Nat)} {q : Nat → Bool}
    {rest : List Nat} (cuts : CutsAs next cut q rest) (run : List Nat) (all : run.all q = true) :
    piecesOf next (run ++ rest) = cut run ++ piecesOf next rest := by
  induction length_ : run.length using Nat.strong_induction_on generalizing run with
  | _ k ih =>
      cases run with
      | nil => rw [cuts.1, List.nil_append, List.nil_append]
      | cons c x =>
          rcases cuts.2 c x all with ⟨n, head, some_, inside, step⟩
          have shorter : ((c :: x).drop n).length < k := by
            rw [← length_, List.length_drop]
            omega
          have all_ : ((c :: x).drop n).all q = true := by
            rw [List.all_eq_true] at all ⊢
            intro y in_rest
            exact all y (List.mem_of_mem_drop in_rest)
          have tail := ih _ shorter ((c :: x).drop n) all_ rfl
          rw [List.cons_append, pieces_step, ← List.cons_append, step, head,
            List.take_append_of_le_length inside, List.drop_append_of_le_length inside, tail,
            List.cons_append]

/-! ## Runs of a class -/

section

variable (p : Nat → Bool)

theorem isolate_rounds (s : List Nat) (rounds more : Nat) (enough : s.length ≤ rounds)
    (enough' : s.length ≤ more) : isolate p rounds s = isolate p more s := by
  induction rounds generalizing s more with
  | zero =>
      have empty : s = [] := List.length_eq_zero_iff.mp (Nat.le_zero.mp enough)
      subst empty
      cases more <;> rfl
  | succ rounds ih =>
      cases s with
      | nil => cases more <;> rfl
      | cons c s =>
          rcases more with _ | more
          · simp at enough'
          · have shorter : ((c :: s).dropWhile fun x => p x == p c).length ≤ s.length := by
              simpa using (List.dropWhile_suffix _).length_le
            simp only [List.length_cons] at enough enough'
            simp only [isolate]
            rw [ih _ more (by omega) (by omega)]

theorem runs_of_cons (c : Nat) (s : List Nat) :
    runsOf p (c :: s) = (p c, (c :: s).takeWhile fun x => p x == p c) ::
      runsOf p ((c :: s).dropWhile fun x => p x == p c) := by
  have shorter : ((c :: s).dropWhile fun x => p x == p c).length ≤ s.length := by
    simpa using (List.dropWhile_suffix _).length_le
  simp only [runsOf, List.length_cons, isolate]
  rw [isolate_rounds p _ s.length _ shorter (Nat.le_refl _)]

/-- A text is read one maximal run after the other. -/
theorem by_runs {motive : List Nat → Prop} (empty : motive [])
    (run : ∀ c run rest, run ≠ [] → run.all (fun x => p x == p c) = true →
      rest.head?.any (fun x => p x == p c) = false →
      runsOf p (run ++ rest) = (p c, run) :: runsOf p rest → motive rest → motive (run ++ rest))
    (s : List Nat) : motive s := by
  induction length_ : s.length using Nat.strong_induction_on generalizing s with
  | _ k ih =>
      cases s with
      | nil => exact empty
      | cons c s =>
          have parts := List.takeWhile_append_dropWhile (p := fun x => p x == p c) (l := c :: s)
          have split_ := runs_of_cons p c s
          have shorter : ((c :: s).dropWhile fun x => p x == p c).length ≤ s.length := by
            simpa using (List.dropWhile_suffix _).length_le
          have some_ : ((c :: s).takeWhile fun x => p x == p c) ≠ [] := by simp
          have stop : ((c :: s).dropWhile fun x => p x == p c).head?.any (fun x => p x == p c) =
              false := by
            have head := List.head?_dropWhile_not (fun x => p x == p c) (c :: s)
            rcases rest : (c :: s).dropWhile fun x => p x == p c with _ | ⟨d, rest⟩
            · rfl
            · rw [rest] at head
              exact head
          have result := run c _ _ some_ List.all_takeWhile stop (by rw [parts]; exact split_)
            (ih _ (by rw [← length_, List.length_cons]; omega) _ rfl)
          rwa [parts] at result

end

theorem all_cons {q : Nat → Bool} {c : Nat} {x : List Nat} (all : (c :: x).all q = true) :
    q c = true := by
  rw [List.all_cons, Bool.and_eq_true] at all
  exact all.1

theorem head_any_append {q : Nat → Bool} {rest : List Nat} (stop : rest.head?.any q = false)
    (x : List Nat) : (x ++ rest).head?.any q = x.head?.any q := by
  cases x with
  | nil => simpa using stop
  | cons c x => rfl

/-- A scan that `rest` stops stays in its fragment. -/
theorem scan_run_append {q : Nat → Bool} {rest : List Nat} (stop : rest.head?.any q = false)
    (x : List Nat) : scanRun q (x ++ rest) = scanRun q x := by
  induction x with
  | nil => rw [List.nil_append, scan_run_zero stop, scan_run_nil]
  | cons c x ih => rw [List.cons_append, scan_run_cons, scan_run_cons, ih]

theorem scan_run_all {q : Nat → Bool} {x : List Nat} (all : x.all q = true) :
    scanRun q x = x.length := by
  induction x with
  | nil => rfl
  | cons c x ih =>
      rw [List.all_cons, Bool.and_eq_true] at all
      rw [scan_run_cons, if_pos all.1, ih all.2, List.length_cons]

theorem scan_run_congr {q q' : Nat → Bool} {x : List Nat} (same : ∀ y ∈ x, q y = q' y) :
    scanRun q x = scanRun q' x := by
  induction x with
  | nil => rfl
  | cons c x ih =>
      rw [List.forall_mem_cons] at same
      rw [scan_run_cons, scan_run_cons, same.1, ih same.2]

/-! ## smollm -/

theorem gpt2_split_one (c : Nat) : gpt2Re.split [c] = [[c]] := by
  have bounds := gpt2_bounds c []
  have one : gpt2SplitNext [c] = 1 := by
    rw [List.length_singleton] at bounds
    omega
  have found := gpt2_first c []
  rw [one] at found
  rw [split_cons found (Nat.le_refl 0)]
  rfl

theorem smollm_digits (c : Nat) (digit : cpDigit c = true) (rest : List Nat) :
    CutsAs smollmSplitNext (fun run => (run.map fun c => [c]).flatMap gpt2Re.split)
      (fun x => cpDigit x == cpDigit c) rest := by
  refine ⟨rfl, ?_⟩
  intro d x all
  have here : cpDigit d = true := by simpa [digit] using all_cons all
  refine ⟨1, ?_, Nat.one_pos, by simp, ?_⟩
  · simp [gpt2_split_one]
  · simp [stepOf, smollmSplitNext, here]

theorem smollm_words (c : Nat) (not_digit : cpDigit c = false) {rest : List Nat}
    (stop : rest.head?.any (fun x => cpDigit x == cpDigit c) = false) :
    CutsAs smollmSplitNext gpt2Re.split (fun x => cpDigit x == cpDigit c) rest := by
  refine ⟨rfl, ?_⟩
  intro d x all
  have here : cpDigit d = false := by simpa [not_digit] using all_cons all
  have bounds := gpt2_bounds d x
  have found := gpt2_first d x
  have shorter : ((d :: x).drop (gpt2SplitNext (d :: x))).length ≤ x.length := by
    rw [List.length_drop, List.length_cons]
    omega
  have taken : x.length + 1 - ((d :: x).drop (gpt2SplitNext (d :: x))).length =
      gpt2SplitNext (d :: x) := by
    rw [List.length_drop]
    rw [List.length_cons] at bounds ⊢
    omega
  have segment : ((d :: x) ++ rest).takeWhile (fun c => !cpDigit c) = d :: x := by
    have whole : scanRun (fun c => !cpDigit c) ((d :: x) ++ rest) = (d :: x).length := by
      rw [scan_run_append (by simpa [not_digit] using stop)]
      exact scan_run_all (by simpa [not_digit] using all)
    rw [← take_scan_run, whole, List.take_left]
  refine ⟨gpt2SplitNext (d :: x), ?_, bounds.1, bounds.2, ?_⟩
  · rw [split_cons found shorter, taken]
  · have moves : gpt2SplitNext (d :: x) ≠ 0 := by omega
    have next : smollmSplitNext ((d :: x) ++ rest) = gpt2SplitNext (d :: x) := by
      rw [smollmSplitNext, segment]
      simp [here]
    rw [stepOf, next, if_neg moves]

theorem smollm_pieces (s : List Nat) : piecesOf smollmSplitNext s = smollmSpec s := by
  induction s using by_runs cpDigit with
  | empty => rfl
  | run c run rest some_ all stop runs ih =>
      have spec : smollmSpec (run ++ rest) =
          (if cpDigit c then run.map fun c => [c] else [run]).flatMap gpt2Re.split ++
            smollmSpec rest := by
        simp only [smollmSpec, digitsPass, runs, List.flatMap_cons, List.flatMap_append]
      rw [spec, ← ih]
      by_cases digit : cpDigit c = true
      · rw [if_pos digit]
        exact pieces_append (smollm_digits c digit rest) run all
      · have not_digit : cpDigit c = false := by simpa using digit
        rw [if_neg digit, List.flatMap_singleton]
        exact pieces_append (smollm_words c not_digit stop) run all

/-! ## afmoe -/

theorem cjk_opens {c : Nat} (cjk : cpAfmoeCjk c = true) :
    opens c = true ∧ cpSpace c = false ∧ 0x80 ≤ c := by
  simp only [cpAfmoeCjk, Bool.or_eq_true, within_iff] at cjk
  have not_space : cpSpace c = false := by
    by_contra space
    rw [Bool.not_eq_false, space_iff, within_iff] at space
    omega
  have plain : cpSymbol c = false := by
    simp (disch := omega) [cpSymbol, within_out]
  have class_ : ¬cpClass c = .space := by simpa [cpSpace] using not_space
  refine ⟨?_, not_space, by omega⟩
  rw [opens, cpLetter, if_neg class_, plain]
  by_cases mark : cpMark c = true
  · simp [mark]
  · simp [mark]
    omega

theorem opens_not_space {c : Nat} (open_ : opens c = true) : cpSpace c = false := by
  simp only [opens, Bool.or_eq_true] at open_
  rcases open_ with letter | mark
  · exact letter_not_space letter
  · exact mark_not_space mark

theorem opens_not_punct {c : Nat} (open_ : opens c = true) : cpPunctSym c = false := by
  simp only [opens, Bool.or_eq_true] at open_
  rcases open_ with letter | mark
  · simp [cpPunctSym, cpOther, letter]
  · simp [cpPunctSym, mark]

/-- A character of the earlier passes, which ends a fragment. -/
def isolated (c : Nat) : Bool := cpDigit c || cpAfmoeCjk c

theorem isolated_cases {c : Nat} (alone : isolated c = true) :
    cpSpace c = false ∧ cpPunctSym c = false ∧ newline c = false ∧ asciiLetter c = false ∧
      afmoeBody c = false := by
  have not_space : cpSpace c = false := by
    simp only [isolated, Bool.or_eq_true] at alone
    rcases alone with digit | cjk
    · exact digit_not_space digit
    · exact (cjk_opens cjk).2.1
  have not_newline : newline c = false := by
    by_contra at_
    rw [newline_space (by simpa using at_)] at not_space
    cases not_space
  simp only [isolated, Bool.or_eq_true] at alone
  rcases alone with digit | cjk
  · have not_letter := digit_not_letter digit
    have not_mark : cpMark c = false := by
      by_contra mark
      have range := mark_range (c := c) (by simpa using mark)
      simp only [cpDigit, within_iff] at digit
      omega
    have not_ascii : asciiLetter c = false := by
      simp only [cpDigit, within_iff] at digit
      simp (disch := omega) [asciiLetter, within_out]
    exact ⟨not_space, by simp [cpPunctSym, cpOther, digit], not_newline, not_ascii,
      by simp [afmoeBody, not_letter, not_mark]⟩
  · rcases cjk_opens cjk with ⟨open_, _, high⟩
    have not_ascii : asciiLetter c = false := by
      simp (disch := omega) [asciiLetter, within_out]
    exact ⟨not_space, opens_not_punct open_, not_newline, not_ascii, by simp [afmoeBody, cjk]⟩

theorem head_isolated {q : Nat → Bool} {rest : List Nat}
    (stops : rest.head?.all isolated = true) (closed : ∀ c, isolated c = true → q c = false) :
    rest.head?.any q = false := by
  cases rest with
  | nil => rfl
  | cons d rest => simpa using closed d (by simpa using stops)

/-- The letter alternative: an optional character and a run of letters and marks. -/
theorem first_lead_opens (c : Nat) (s : List Nat) :
    (Re.seq (.opt afmoeLeads) (.rep opens 1 none)).first (c :: s) =
      if afmoeLeads c = true ∧ s.head?.any opens = true then
        some ((c :: s).drop (1 + scanRun opens s))
      else if opens c = true then some ((c :: s).drop (scanRun opens (c :: s))) else none := by
  rw [first_seq_opt_cons, first_plus_run, first_plus_run]
  by_cases lead : afmoeLeads c = true
  · by_cases next : s.head?.any opens = true
    · have shift : 1 + scanRun opens s = scanRun opens s + 1 := Nat.add_comm _ _
      simp [lead, next, shift]
    · have no_lead : ¬(afmoeLeads c = true ∧ s.head?.any opens = true) := fun both => next both.2
      rw [if_pos lead, if_neg next, Option.none_or, if_neg no_lead]
      rfl
  · have no_lead : ¬(afmoeLeads c = true ∧ s.head?.any opens = true) := fun both => lead both.1
    rw [if_neg lead, if_neg no_lead]
    rfl

/-- The scanner on a fragment, as the regex reads it. -/
def fragmentNext (c : Nat) (s : List Nat) : Nat :=
  if cpAsciiPunct c = true ∧ s.head?.any asciiLetter = true then 1 + scanRun asciiLetter s
  else if afmoeLeads c = true ∧ s.head?.any opens = true then 1 + scanRun opens s
  else if opens c = true then scanRun opens (c :: s)
  else
    match punctRun cpPunctSym newline (c :: s) with
    | some j => j
    | none => spaceTail (fun _ => true) (c :: s)

theorem afmoe_first {c : Nat} (not_digit : cpDigit c = false) (s : List Nat) :
    afmoeRe.first (c :: s) = some ((c :: s).drop (fragmentNext c s)) ∧
      0 < fragmentNext c s ∧ fragmentNext c s ≤ (c :: s).length := by
  have shape : afmoeRe = .alt (.seq (.cls cpAsciiPunct) (.rep asciiLetter 1 none))
      (.alt (.seq (.opt afmoeLeads) (.rep opens 1 none)) (.alt (punct cpPunctSym newline) spaces)) :=
    rfl
  rw [shape, first_alt, first_alt, first_alt, first_seq_cls_cons, first_plus_run, first_lead_opens,
    first_punct (by decide), fragmentNext]
  have letters_le := scan_run_le asciiLetter s
  have opens_le := scan_run_le opens s
  by_cases punct_ : cpAsciiPunct c = true ∧ s.head?.any asciiLetter = true
  · rw [if_pos punct_.1, if_pos punct_.2, if_pos punct_, Option.some_or, Nat.add_comm,
      List.drop_succ_cons, List.length_cons]
    exact ⟨rfl, by omega, by omega⟩
  have no_punct : (if cpAsciiPunct c = true then
      if s.head?.any asciiLetter = true then some (s.drop (scanRun asciiLetter s)) else none
      else none) = none := by
    by_cases here : cpAsciiPunct c = true
    · rw [if_pos here, if_neg (fun next => punct_ ⟨here, next⟩)]
    · rw [if_neg here]
  rw [no_punct, if_neg punct_, Option.none_or]
  by_cases lead : afmoeLeads c = true ∧ s.head?.any opens = true
  · rw [if_pos lead, if_pos lead, Option.some_or, List.length_cons]
    exact ⟨rfl, by omega, by omega⟩
  rw [if_neg lead, if_neg lead]
  by_cases open_ : opens c = true
  · rw [if_pos open_, if_pos open_, Option.some_or]
    exact ⟨rfl, scan_run_pos (by simpa using open_), scan_run_le opens _⟩
  rw [if_neg open_, if_neg open_, Option.none_or]
  rcases run : punctRun cpPunctSym newline (c :: s) with _ | j
  · have not_letter : cpLetter c = false ∧ cpMark c = false := by simpa [opens] using open_
    have not_other : cpOther c = false := by
      simpa [cpPunctSym, not_letter.2] using punct_run_none run
    have space := space_of_rest not_letter.1 not_digit not_other
    have bounds := @space_tail_le (fun _ => true) _ s space
    refine ⟨?_, bounds.1, bounds.2⟩
    rw [first_spaces space]
    rfl
  · have bounds := punct_run_le run
    exact ⟨rfl, bounds.1, bounds.2⟩

theorem fragment_space_tail {rest : List Nat} (stops : rest.head?.all isolated = true)
    {x : List Nat} (plain : x.all (fun y => !isolated y) = true) :
    spaceTail (fun c => !cpDigit c && !cpAfmoeCjk c) (x ++ rest) = spaceTail (fun _ => true) x := by
  have no_space := head_isolated stops fun c alone => (isolated_cases alone).1
  have run := scan_run_append no_space x
  have le := scan_run_le cpSpace x
  have past : (((x ++ rest).drop (scanRun cpSpace x)).head?.any
      fun c => !cpDigit c && !cpAfmoeCjk c) = (x.drop (scanRun cpSpace x)).head?.any fun _ => true := by
    have closed := head_isolated (q := fun c => !cpDigit c && !cpAfmoeCjk c) stops (by
      intro c alone
      rw [isolated] at alone
      rw [← Bool.not_or, alone]
      rfl)
    rw [List.drop_append_of_le_length le, head_any_append closed]
    rcases tail : x.drop (scanRun cpSpace x) with _ | ⟨d, tail'⟩
    · rfl
    · have inside : d ∈ x := by
        apply List.mem_of_mem_drop (i := scanRun cpSpace x)
        rw [tail]
        exact List.mem_cons_self
      have here := List.all_eq_true.mp plain d inside
      simpa [isolated] using here
  rw [spaceTail, spaceTail, run, List.take_append_of_le_length le, past]

theorem body_opens {x : List Nat} (plain : x.all (fun y => !isolated y) = true) :
    x.head?.any afmoeBody = x.head?.any opens ∧ scanRun afmoeBody x = scanRun opens x := by
  have same : ∀ y ∈ x, afmoeBody y = opens y := by
    intro y inside
    have here := List.all_eq_true.mp plain y inside
    simp only [isolated, Bool.not_or, Bool.and_eq_true, Bool.not_eq_true'] at here
    simp [afmoeBody, opens, here.2]
  refine ⟨?_, scan_run_congr same⟩
  cases x with
  | nil => rfl
  | cons c x => simpa using same c List.mem_cons_self

theorem punct_sym_cjk : (fun c => cpPunctSym c && !cpAfmoeCjk c) = cpPunctSym := by
  funext c
  by_cases cjk : cpAfmoeCjk c = true
  · simp [cjk, opens_not_punct (cjk_opens cjk).1]
  · simp [cjk]

theorem punct_run_append {p tail : Nat → Bool} {rest : List Nat} (no_p : rest.head?.any p = false)
    (no_tail : rest.head?.any tail = false) (c : Nat) (s : List Nat) :
    punctRun p tail (c :: s ++ rest) = punctRun p tail (c :: s) := by
  have lead : ((c :: s ++ rest).head? = some cpSpaceChar ∧ (c :: s ++ rest).tail.head?.any p = true) ↔
      ((c :: s).head? = some cpSpaceChar ∧ (c :: s).tail.head?.any p = true) := by
    rw [List.cons_append, List.tail_cons, List.tail_cons, head_any_append no_p]
    rfl
  have count : (if (c :: s).head? = some cpSpaceChar ∧ (c :: s).tail.head?.any p = true then 1 else 0) ≤
      (c :: s).length := by
    rw [List.length_cons]
    split_ifs <;> omega
  simp only [punctRun, lead]
  generalize (if (c :: s).head? = some cpSpaceChar ∧ (c :: s).tail.head?.any p = true then 1 else 0) = j
    at count ⊢
  have all := scan_run_le p ((c :: s).drop j)
  rw [List.length_drop] at all
  rw [List.drop_append_of_le_length count, head_any_append no_p, scan_run_append no_p,
    List.drop_append_of_le_length (by omega), scan_run_append no_tail]

/-- What `afmoe_split_next` does behind its letters. -/
def afmoeRest (s : List Nat) : Nat :=
  match punctRun cpPunctSym newline s with
  | some j => j
  | none => spaceTail (fun c => !cpDigit c && !cpAfmoeCjk c) s

theorem afmoe_split_eq (c : Nat) (s : List Nat) (not_digit : cpDigit c = false)
    (not_cjk : cpAfmoeCjk c = false) :
    afmoeSplitNext (c :: s) =
      if cpAsciiPunct c = true ∧ s.head?.any asciiLetter = true then 1 + scanRun asciiLetter s
      else if afmoeLeads c = true ∧ s ≠ [] then
        if s.head?.any afmoeBody = true then 1 + scanRun afmoeBody s else afmoeRest (c :: s)
      else if afmoeBody c = true then scanRun afmoeBody (c :: s) else afmoeRest (c :: s) := by
  have rest_eq : afmoeRest (c :: s) =
      let j := if (c :: s).head? = some cpSpaceChar ∧ (c :: s).tail.head?.any cpPunctSym then 1 else 0
      if ((c :: s).drop j).head?.any cpPunctSym then
        let k := j + scanRun (fun c => cpPunctSym c && !cpAfmoeCjk c) ((c :: s).drop j)
        k + scanRun newline ((c :: s).drop k)
      else spaceTail (fun c => !cpDigit c && !cpAfmoeCjk c) (c :: s) := by
    rw [afmoeRest, punctRun, punct_sym_cjk]
    simp only
    split_ifs <;> rfl
  have some_ : 1 < (c :: s).length ↔ s ≠ [] := by
    cases s <;> simp
  rw [rest_eq, afmoeSplitNext]
  simp only [List.head?_cons, Option.any_some, not_digit, not_cjk, Bool.false_eq_true, if_false,
    List.tail_cons, some_]
  by_cases punct_ : cpAsciiPunct c = true ∧ s.head?.any asciiLetter = true
  · rw [if_pos punct_, if_pos punct_]
  · rw [if_neg punct_, if_neg punct_]
    by_cases lead : afmoeLeads c = true ∧ s ≠ []
    · simp only [if_pos lead, List.drop_one, List.tail_cons]
    · simp only [if_neg lead, List.drop_zero, List.head?_cons, Option.any_some, Nat.zero_add]

/-- Nothing else takes a letter or a mark. -/
theorem rest_of_opens {c : Nat} {s : List Nat} (open_ : opens c = true) :
    (match punctRun cpPunctSym newline (c :: s) with
      | some j => j
      | none => spaceTail (fun _ => true) (c :: s)) = 0 := by
  have not_space := opens_not_space open_
  have not_char : c ≠ cpSpaceChar := by
    intro here
    rw [here] at not_space
    cases not_space
  have no_punct : punctRun cpPunctSym newline (c :: s) = none := by
    simp [punctRun, not_char, opens_not_punct open_]
  have no_run : scanRun cpSpace (c :: s) = 0 := by
    rw [scan_run_cons, not_space]
    rfl
  rw [no_punct]
  simp [spaceTail, no_run, lastWhere]

/-- The scanner and the regex on a fragment in front of an isolated character. -/
theorem afmoe_step {c : Nat} {s rest : List Nat} (stops : rest.head?.all isolated = true)
    (plain : (c :: s).all (fun y => !isolated y) = true) :
    stepOf afmoeSplitNext (c :: s ++ rest) = fragmentNext c s := by
  have here : cpDigit c = false ∧ cpAfmoeCjk c = false := by
    simpa [isolated] using all_cons plain
  have plain_tail : s.all (fun y => !isolated y) = true := by
    rw [List.all_cons, Bool.and_eq_true] at plain
    exact plain.2
  have body := body_opens plain
  have body_tail := body_opens plain_tail
  have body_here : afmoeBody c = opens c := by simpa using body.1
  have no_body := head_isolated stops fun c alone => (isolated_cases alone).2.2.2.2
  have no_ascii := head_isolated stops fun c alone => (isolated_cases alone).2.2.2.1
  have positive := (afmoe_first here.1 s).2.1
  have rest_eq : afmoeRest (c :: s ++ rest) =
      match punctRun cpPunctSym newline (c :: s) with
      | some j => j
      | none => spaceTail (fun _ => true) (c :: s) := by
    rw [afmoeRest, punct_run_append (head_isolated stops fun c alone => (isolated_cases alone).2.1)
      (head_isolated stops fun c alone => (isolated_cases alone).2.2.1), fragment_space_tail stops plain]
  have next : afmoeSplitNext (c :: s ++ rest) = fragmentNext c s ∨
      afmoeSplitNext (c :: s ++ rest) = 0 ∧ fragmentNext c s = 1 := by
    rw [List.cons_append, afmoe_split_eq c (s ++ rest) here.1 here.2, head_any_append no_ascii,
      scan_run_append no_ascii, head_any_append no_body, scan_run_append no_body, ← List.cons_append,
      scan_run_append no_body, rest_eq, body.2, body_tail.1, body_tail.2, body_here, fragmentNext]
    by_cases punct_ : cpAsciiPunct c = true ∧ s.head?.any asciiLetter = true
    · left
      rw [if_pos punct_, if_pos punct_]
    rw [if_neg punct_, if_neg punct_]
    by_cases follows : s.head?.any opens = true
    · left
      have some_ : s ++ rest ≠ [] := by
        cases s with
        | nil => cases follows
        | cons d s => simp
      by_cases lead : afmoeLeads c = true
      · rw [if_pos ⟨lead, some_⟩, if_pos follows, if_pos ⟨lead, follows⟩]
      · have no_lead : ¬(afmoeLeads c = true ∧ s ++ rest ≠ []) := fun both => lead both.1
        have no_lead' : ¬(afmoeLeads c = true ∧ s.head?.any opens = true) := fun both => lead both.1
        rw [if_neg no_lead, if_neg no_lead']
    · rw [if_neg (show ¬(afmoeLeads c = true ∧ s.head?.any opens = true) from
        fun both => follows both.2)]
      by_cases lead : afmoeLeads c = true ∧ s ++ rest ≠ []
      · rw [if_pos lead, if_neg follows]
        by_cases open_ : opens c = true
        · -- a mark alone: the scanner moves on by one
          right
          rw [if_pos open_, rest_of_opens open_]
          refine ⟨rfl, ?_⟩
          rw [scan_run_cons, if_pos open_, scan_run_zero (by simpa using follows)]
        · left
          rw [if_neg open_]
      · left
        rw [if_neg lead]
  rw [stepOf]
  rcases next with same | ⟨zero, one⟩
  · rw [if_neg (by omega), same]
  · rw [if_pos zero, one]

theorem afmoe_words {rest : List Nat} (stops : rest.head?.all isolated = true) :
    CutsAs afmoeSplitNext afmoeRe.split (fun y => !isolated y) rest := by
  refine ⟨rfl, ?_⟩
  intro c x plain
  have here : cpDigit c = false ∧ cpAfmoeCjk c = false := by
    simpa [isolated] using all_cons plain
  rcases afmoe_first here.1 x with ⟨found, some_, inside⟩
  have shorter : ((c :: x).drop (fragmentNext c x)).length ≤ x.length := by
    rw [List.length_drop, List.length_cons]
    omega
  have taken : x.length + 1 - ((c :: x).drop (fragmentNext c x)).length = fragmentNext c x := by
    rw [List.length_drop]
    rw [List.length_cons] at inside ⊢
    omega
  refine ⟨fragmentNext c x, ?_, some_, inside, afmoe_step stops plain⟩
  rw [split_cons found shorter, taken]

theorem cjk_not_digit {c : Nat} (cjk : cpAfmoeCjk c = true) : cpDigit c = false := by
  have high := (cjk_opens cjk).2.2
  simp (disch := omega) [cpDigit, within_out]

/-- A run of the second pass is one match. -/
theorem afmoe_cjk {rest : List Nat} (stop : rest.head?.any cpAfmoeCjk = false) :
    CutsAs afmoeSplitNext afmoeRe.split cpAfmoeCjk rest := by
  refine ⟨rfl, ?_⟩
  intro c x all
  have cjk := all_cons all
  have tail_all : x.all cpAfmoeCjk = true := by
    rw [List.all_cons, Bool.and_eq_true] at all
    exact all.2
  have opens_all : ∀ y : List Nat, y.all cpAfmoeCjk = true → scanRun opens y = y.length := by
    intro y all_y
    apply scan_run_all
    rw [List.all_eq_true] at all_y ⊢
    intro d inside
    exact (cjk_opens (all_y d inside)).1
  have high := (cjk_opens cjk).2.2
  have not_punct : cpAsciiPunct c = false := by
    simp (disch := omega) [cpAsciiPunct, within_out]
  have whole : fragmentNext c x = (c :: x).length := by
    rw [fragmentNext, if_neg (by simp [not_punct]), opens_all x tail_all, opens_all (c :: x) all,
      if_pos (cjk_opens cjk).1, List.length_cons, Nat.add_comm]
    split_ifs <;> rfl
  have found := (afmoe_first (cjk_not_digit cjk) x).1
  rw [whole] at found
  have step : afmoeSplitNext (c :: x ++ rest) = (c :: x).length := by
    rw [List.cons_append, afmoeSplitNext]
    simp only [List.head?_cons, Option.any_some, cjk_not_digit cjk, cjk, if_true, Bool.false_eq_true,
      if_false]
    rw [← List.cons_append, scan_run_append stop, scan_run_all all]
  refine ⟨(c :: x).length, ?_, by simp, Nat.le_refl _, ?_⟩
  · rw [split_cons found (by simp)]
    simp
  · rw [stepOf, step]
    simp

/-- A fragment without digits, in front of a digit or the end of the text. -/
theorem afmoe_plain {rest : List Nat} (stop : rest.head?.all cpDigit = true) (run : List Nat)
    (all : run.all (fun y => !cpDigit y) = true) :
    piecesOf afmoeSplitNext (run ++ rest) =
      (cjkPass run).flatMap afmoeRe.split ++ piecesOf afmoeSplitNext rest := by
  induction run using by_runs cpAfmoeCjk with
  | empty => rfl
  | run c run rest' some_ same stop' runs ih =>
      rw [List.all_append, Bool.and_eq_true] at all
      have spec : (cjkPass (run ++ rest')).flatMap afmoeRe.split =
          afmoeRe.split run ++ (cjkPass rest').flatMap afmoeRe.split := by
        rw [cjkPass, runs, List.map_cons, List.flatMap_cons]
        rfl
      rw [spec, List.append_assoc, List.append_assoc, ← ih all.2]
      by_cases cjk : cpAfmoeCjk c = true
      · apply pieces_append _ _ (by simpa [cjk] using same)
        apply afmoe_cjk
        rw [head_any_append]
        · simpa [cjk] using stop'
        · cases rest with
          | nil => rfl
          | cons d rest =>
              have digit : cpDigit d = true := by simpa using stop
              by_contra cjk_d
              rw [cjk_not_digit (by simpa using cjk_d)] at digit
              cases digit
      · have cjk_c : cpAfmoeCjk c = false := by simpa using cjk
        apply pieces_append
        · apply afmoe_words
          cases rest' with
          | nil =>
              cases rest with
              | nil => rfl
              | cons d rest =>
                  have digit : cpDigit d = true := by simpa using stop
                  simp [isolated, digit]
          | cons d rest' =>
              have cjk_d : cpAfmoeCjk d = true := by simpa [cjk_c] using stop'
              simp [isolated, cjk_d]
        · rw [List.all_eq_true] at same ⊢
          intro y inside
          have not_digit := List.all_eq_true.mp all.1 y inside
          have not_cjk := same y inside
          rw [cjk_c] at not_cjk
          simp only [isolated, Bool.not_or, Bool.and_eq_true]
          exact ⟨not_digit, by simpa using not_cjk⟩

/-! ### Digits -/

theorem threes_rounds (s : List Nat) (rounds more : Nat) (enough : s.length ≤ rounds)
    (enough' : s.length ≤ more) : threes rounds s = threes more s := by
  induction rounds generalizing s more with
  | zero =>
      have empty : s = [] := List.length_eq_zero_iff.mp (Nat.le_zero.mp enough)
      subst empty
      cases more <;> rfl
  | succ rounds ih =>
      cases s with
      | nil => cases more <;> rfl
      | cons c s =>
          rcases more with _ | more
          · simp at enough'
          · simp only [List.length_cons] at enough enough'
            simp only [threes]
            rw [ih _ more (by rw [List.length_drop, List.length_cons]; omega)
              (by rw [List.length_drop, List.length_cons]; omega)]

/-- How many digits the first group of a run has. -/
def groupLen (count : Nat) : Nat := if count % 3 ≠ 0 then count % 3 else 3

theorem groups_cons {run : List Nat} (some_ : run ≠ []) :
    groups run = run.take (groupLen run.length) :: groups (run.drop (groupLen run.length)) := by
  have length_pos := List.length_pos_of_ne_nil some_
  have below : groupLen run.length ≤ run.length ∧ (run.length - groupLen run.length) % 3 = 0 := by
    rw [groupLen]
    split_ifs <;> omega
  have tail : groups (run.drop (groupLen run.length)) =
      threes run.length (run.drop (groupLen run.length)) := by
    have left : (run.drop (groupLen run.length)).length % 3 = 0 := by
      rw [List.length_drop]
      exact below.2
    rw [groups, left, List.take_zero, List.drop_zero, gapPiece, if_pos rfl, List.nil_append]
    apply threes_rounds
    · exact Nat.le_refl _
    · rw [List.length_drop]
      omega
  rw [tail, groups]
  by_cases odd : run.length % 3 = 0
  · have three : groupLen run.length = 3 := by rw [groupLen, if_neg (not_not.mpr odd)]
    obtain ⟨rounds, count⟩ := Nat.exists_eq_succ_of_ne_zero (Nat.pos_iff_ne_zero.mp length_pos)
    rw [odd, List.take_zero, List.drop_zero, gapPiece, if_pos rfl, List.nil_append, three]
    have step : threes run.length run = run.take 3 :: threes rounds (run.drop 3) := by
      rw [count]
      cases run with
      | nil => exact absurd rfl some_
      | cons c run => rfl
    rw [step, threes_rounds (run.drop 3) rounds run.length]
    · rw [List.length_drop]
      omega
    · rw [List.length_drop]
      omega
  · have first : groupLen run.length = run.length % 3 := by rw [groupLen, if_pos odd]
    have piece : run.take (run.length % 3) ≠ [] := by
      intro empty
      rw [List.take_eq_nil_iff] at empty
      rcases empty with zero | nil
      · exact odd zero
      · exact some_ nil
    rw [first, gapPiece, if_neg piece, List.singleton_append]

theorem spaces_none {c : Nat} {s : List Nat} (not_space : cpSpace c = false) :
    spaces.first (c :: s) = none := by
  have run : scanRun cpSpace (c :: s) = 0 := by simp [scan_run_cons, not_space]
  rw [spaces, trailing, first_alt, first_alt, first_newlines, first_seq_plus, first_plus, run]
  simp [not_space, lastWhere]

/-- The regex matches nowhere in a run of digits. -/
theorem afmoe_digit_none {c : Nat} {s : List Nat} (all : (c :: s).all cpDigit = true) :
    afmoeRe.first (c :: s) = none := by
  have digit := all_cons all
  have not_space := digit_not_space digit
  have not_char : c ≠ cpSpaceChar := by
    intro here
    rw [here] at not_space
    cases not_space
  have closed : ∀ d, cpDigit d = true → opens d = false := by
    intro d digit_d
    by_contra open_
    rw [opens_not_digit (by simpa using open_)] at digit_d
    cases digit_d
  have not_ascii : cpAsciiPunct c = false := by
    simp only [cpDigit, within_iff] at digit
    simp (disch := omega) [cpAsciiPunct, within_out]
  have next : s.head?.any opens = false := by
    cases s with
    | nil => rfl
    | cons d s =>
        rw [List.all_cons, List.all_cons, Bool.and_eq_true, Bool.and_eq_true] at all
        simpa using closed d all.2.1
  have not_punct : cpPunctSym c = false := by simp [cpPunctSym, cpOther, digit]
  have shape : afmoeRe = .alt (.seq (.cls cpAsciiPunct) (.rep asciiLetter 1 none))
      (.alt (.seq (.opt afmoeLeads) (.rep opens 1 none)) (.alt (punct cpPunctSym newline) spaces)) :=
    rfl
  have run : punctRun cpPunctSym newline (c :: s) = none := by simp [punctRun, not_char, not_punct]
  rw [shape, first_alt, first_alt, first_alt, first_seq_cls_cons, first_lead_opens,
    first_punct (by decide), run, spaces_none not_space, not_ascii, next, closed c digit]
  simp

theorem afmoe_group {group : List Nat} (some_ : group ≠ []) (all : group.all cpDigit = true) :
    (cjkPass group).flatMap afmoeRe.split = [group] := by
  have one : cjkPass group = [group] := by
    cases group with
    | nil => exact absurd rfl some_
    | cons c group =>
        have same : scanRun (fun x => cpAfmoeCjk x == cpAfmoeCjk c) (c :: group) =
            (c :: group).length := by
          have not_cjk : ∀ y, cpDigit y = true → cpAfmoeCjk y = false := by
            intro y digit
            by_contra cjk
            rw [cjk_not_digit (by simpa using cjk)] at digit
            cases digit
          apply scan_run_all
          rw [List.all_eq_true] at all ⊢
          intro y inside
          rw [not_cjk y (all y inside), not_cjk c (all c List.mem_cons_self)]
          rfl
        rw [cjkPass, runs_of_cons, ← take_scan_run, ← drop_scan_run, same, List.take_length,
          List.drop_length]
        rfl
  have whole : afmoeRe.split group = [group] := by
    rw [split_unmatched, gapPiece, if_neg some_]
    intro c t inside
    apply afmoe_digit_none
    rw [List.all_eq_true] at all ⊢
    intro y in_tail
    exact all y (inside.subset in_tail)
  rw [one, List.flatMap_singleton, whole]

theorem afmoe_digits {rest : List Nat} (stop : rest.head?.any cpDigit = false) :
    CutsAs afmoeSplitNext (fun run => ((groups run).flatMap cjkPass).flatMap afmoeRe.split) cpDigit
      rest := by
  refine ⟨rfl, ?_⟩
  intro c x all
  have some_ : c :: x ≠ [] := List.cons_ne_nil c x
  have bounds : 0 < groupLen (c :: x).length ∧ groupLen (c :: x).length ≤ (c :: x).length := by
    rw [groupLen, List.length_cons]
    split_ifs <;> omega
  have piece : (c :: x).take (groupLen (c :: x).length) ≠ [] := by
    intro empty
    rw [List.take_eq_nil_iff] at empty
    rcases empty with zero | nil
    · omega
    · exact some_ nil
  have piece_all : ((c :: x).take (groupLen (c :: x).length)).all cpDigit = true := by
    rw [List.all_eq_true] at all ⊢
    intro y inside
    exact all y (List.mem_of_mem_take inside)
  refine ⟨groupLen (c :: x).length, ?_, bounds.1, bounds.2, ?_⟩
  · change ((groups (c :: x)).flatMap cjkPass).flatMap afmoeRe.split = _
    rw [groups_cons some_, List.flatMap_cons, List.flatMap_append, afmoe_group piece piece_all]
    rfl
  · have digit := all_cons all
    have step : afmoeSplitNext (c :: x ++ rest) = groupLen (c :: x).length := by
      rw [List.cons_append, afmoeSplitNext]
      simp only [List.head?_cons, Option.any_some, digit, if_true]
      rw [← List.cons_append, scan_run_append stop, scan_run_all all, groupLen]
    rw [stepOf, step, if_neg (by omega)]

theorem afmoe_pieces (s : List Nat) : piecesOf afmoeSplitNext s = afmoeSpec s := by
  induction s using by_runs cpDigit with
  | empty => rfl
  | run c run rest some_ all stop runs ih =>
      have spec : afmoeSpec (run ++ rest) =
          ((if cpDigit c then groups run else [run]).flatMap cjkPass).flatMap afmoeRe.split ++
            afmoeSpec rest := by
        simp only [afmoeSpec, groupsPass, runs, List.flatMap_cons, List.flatMap_append]
      rw [spec, ← ih]
      by_cases digit : cpDigit c = true
      · rw [if_pos digit]
        exact pieces_append (afmoe_digits (by simpa [digit] using stop)) run (by simpa [digit] using all)
      · have not_digit : cpDigit c = false := by simpa using digit
        rw [if_neg digit, List.flatMap_singleton]
        apply afmoe_plain
        · cases rest with
          | nil => rfl
          | cons d rest =>
              have digit_d : cpDigit d = true := by simpa [not_digit] using stop
              simpa using digit_d
        · simpa [not_digit] using all

end GridcoreRunner.Tok
