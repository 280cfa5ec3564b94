import GridcoreRunner.Tokenizer.PreTokens

/-!
# The splitters over an array

The splitters of `tokenizer.c` as they run: positions in an array of code points, of which the
first `n` may be read. A read elsewhere has no answer. Each moves as the splitter over the code
points from its position on does.
-/

namespace GridcoreRunner.Tok.Cursor

set_option autoImplicit false

/-- `cp[j]`, where the first `n` code points may be read. -/
def rd (cp : List Nat) (n j : Nat) : Option Nat := (cp.take n)[j]?

/-- `p(cp[j])`. -/
def sees (cp : List Nat) (n : Nat) (p : Nat → Bool) (j : Nat) : Option Bool := (rd cp n j).map p

/-- `j < n && p(cp[j])`. -/
def seesIn (cp : List Nat) (n : Nat) (p : Nat → Bool) (j : Nat) : Option Bool :=
  if j < n then sees cp n p j else some false

/-- `a && b`. -/
def andAlso (a b : Option Bool) : Option Bool := a.bind fun x => if x then b else some false

/-- `if (a) b else c`. -/
def branch {α : Type} (a : Option Bool) (b c : Option α) : Option α :=
  a.bind fun x => if x then b else c

/-- `while (j < n && p(cp[j]) && j - i < most) j++`; there is no limit where `most` is `n`. -/
def scan (cp : List Nat) (n : Nat) (p : Nat → Bool) (i most : Nat) : Nat → Nat → Option Nat
  | 0, j => some j
  | fuel + 1, j =>
      branch (seesIn cp n p j)
        (if j - i < most then scan cp n p i most fuel (j + 1) else some j) (some j)

def run (cp : List Nat) (n : Nat) (p : Nat → Bool) (j : Nat) : Option Nat := scan cp n p j n n j

/-- `contraction_len`. -/
def contractionLen (cp : List Nat) (n i : Nat) : Option Nat :=
  if n ≤ i then some 0
  else
    (rd cp n i).bind fun c =>
      if c ≠ cpQuote then some 0
      else if n ≤ i + 1 then some 0
      else
        (rd cp n (i + 1)).bind fun x =>
          let a := x ||| 32
          (if i + 2 < n then (rd cp n (i + 2)).map (· ||| 32) else some 0).bind fun b =>
            if a = 0x73 ∨ a = 0x74 ∨ a = 0x6d ∨ a = 0x64 then some 2
            else if (a = 0x72 ∧ b = 0x65) ∨ (a = 0x76 ∧ b = 0x65) ∨ (a = 0x6c ∧ b = 0x6c) then
              some 3
            else some 0

/-- The last newline among `count` code points. -/
def lastNewline (cp : List Nat) (n : Nat) : Nat → Nat → Option Nat → Option (Option Nat)
  | 0, _, last => some last
  | count + 1, k, last =>
      (sees cp n newline k).bind fun here =>
        lastNewline cp n count (k + 1) (if here then some k else last)

/-- The whitespace at the end of each splitter. -/
def spaceTail (cp : List Nat) (n : Nat) (joins : Nat → Bool) (i : Nat) : Option Nat :=
  (run cp n cpSpace i).bind fun j =>
    (lastNewline cp n (j - i) i none).bind fun last =>
      match last with
      | some k => some (k + 1)
      | none =>
          branch (if j < n ∧ 1 < j - i then sees cp n joins j else some false) (some (j - 1))
            (some j)

/-- An optional leading space and a run of `p`, then a run of `tail`. -/
def punctRun (cp : List Nat) (n : Nat) (p body tail : Nat → Bool) (i : Nat) (rest : Option Nat) :
    Option Nat :=
  (branch (andAlso (sees cp n (exactly cpSpaceChar) i) (seesIn cp n p (i + 1))) (some (i + 1))
      (some i)).bind fun j =>
    branch (seesIn cp n p j) ((run cp n body j).bind (run cp n tail)) rest

def preSplitNext (maxDigits : Nat) (cp : List Nat) (n i : Nat) : Option Nat :=
  (contractionLen cp n i).bind fun adv =>
    if adv ≠ 0 then some (i + adv)
    else
      branch (andAlso (sees cp n leads i) (seesIn cp n cpLetter (i + 1)))
        (run cp n cpLetter (i + 1))
        (branch (sees cp n cpLetter i) (run cp n cpLetter i)
          (branch (sees cp n cpDigit i) (scan cp n cpDigit i maxDigits n i)
            (punctRun cp n cpOther cpOther newline i (spaceTail cp n (fun _ => true) i))))

def gpt2Contraction (cp : List Nat) (n i : Nat) : Option Nat :=
  (rd cp n i).bind fun c =>
    if c = cpQuote ∧ i + 1 < n then
      (rd cp n (i + 1)).bind fun a =>
        (if i + 2 < n then rd cp n (i + 2) else some 0).bind fun b =>
          if a = 0x73 ∨ a = 0x74 ∨ a = 0x6d ∨ a = 0x64 then some 2
          else if (a = 0x72 ∧ b = 0x65) ∨ (a = 0x76 ∧ b = 0x65) ∨ (a = 0x6c ∧ b = 0x6c) then some 3
          else some 0
    else some 0

/-- `gpt2_split_next`; `n` is the end of the caller's segment. -/
def gpt2SplitNext (cp : List Nat) (n i : Nat) : Option Nat :=
  (gpt2Contraction cp n i).bind fun adv =>
    if adv ≠ 0 then some (i + adv)
    else
      (branch
        (andAlso (sees cp n (exactly cpSpaceChar) i) (seesIn cp n (fun c => !cpSpace c) (i + 1)))
          (some (i + 1)) (some i)).bind fun j =>
        (rd cp n j).bind fun c =>
          if cpClass c ≠ .space then run cp n (ofClass (cpClass c)) j
          else (run cp n cpSpace i).bind fun k => some (if k < n ∧ 1 < k - i then k - 1 else k)

def tekkenLetters (cp : List Nat) (n i : Nat) : Option Nat :=
  (branch (sees cp n leads i) (some (i + 1)) (some i)).bind fun s =>
    branch (seesIn cp n (fun c => cpLetter c || cpMark c) s)
      ((run cp n cpLetterUpperish s).bind fun u =>
        (run cp n cpLetterLowerish u).bind fun j => some (if u < j ∨ s < u then j else i))
      (some i)

def tekkenSplitNext (cp : List Nat) (n i : Nat) : Option Nat :=
  (tekkenLetters cp n i).bind fun adv =>
    if i < adv then some adv
    else
      branch (sees cp n cpDigit i) (some (i + 1))
        (punctRun cp n cpOther cpOther newlineOrSlash i (spaceTail cp n (fun _ => true) i))

def llama4SplitNext (cp : List Nat) (n i : Nat) : Option Nat :=
  (tekkenLetters cp n i).bind fun adv =>
    if i < adv then (contractionLen cp n adv).bind fun c => some (adv + c)
    else
      branch (sees cp n cpDigit i) (scan cp n cpDigit i 3 n i)
        (punctRun cp n cpOther cpOther newlineOrSlash i (spaceTail cp n (fun _ => true) i))

def afmoeSplitNext (cp : List Nat) (n i : Nat) : Option Nat :=
  branch (sees cp n cpDigit i)
    ((run cp n cpDigit i).bind fun j =>
      let first := (j - i) % 3
      some (i + if first ≠ 0 then first else 3))
    (branch (sees cp n cpAfmoeCjk i) (run cp n cpAfmoeCjk i)
      (branch (andAlso (sees cp n cpAsciiPunct i) (seesIn cp n asciiLetter (i + 1)))
        (run cp n asciiLetter (i + 1))
        ((branch (sees cp n afmoeLeads i) (some (if i + 1 < n then i + 1 else i)) (some i)).bind
          fun s =>
            branch (seesIn cp n afmoeBody s) (run cp n afmoeBody s)
              (punctRun cp n cpPunctSym (fun c => cpPunctSym c && !cpAfmoeCjk c) newline i
                (spaceTail cp n (fun c => !cpDigit c && !cpAfmoeCjk c) i)))))

def smollmSplitNext (cp : List Nat) (n i : Nat) : Option Nat :=
  branch (sees cp n cpDigit i) (some (i + 1))
    ((run cp n (fun c => !cpDigit c) i).bind fun seg => gpt2SplitNext cp seg i)

/-- The splitter that `bpe_encode_text` picks. -/
def splitNext : Pre → List Nat → Nat → Nat → Option Nat
  | .tekken => tekkenSplitNext
  | .llama4 => llama4SplitNext
  | .llama3 => preSplitNext 3
  | .qwen2 => preSplitNext 1
  | .smollm => smollmSplitNext
  | .afmoe => afmoeSplitNext
  | .gpt2 => gpt2SplitNext

/-! ## Reads -/

/-- What may be read from a position on. -/
def view (cp : List Nat) (n i : Nat) : List Nat := (cp.take n).drop i

variable {cp : List Nat} {n : Nat}

theorem view_add (cp : List Nat) (n i k : Nat) : view cp n (i + k) = (view cp n i).drop k := by
  rw [view, view, List.drop_drop]

theorem view_length (room : n ≤ cp.length) (i : Nat) : (view cp n i).length = n - i := by
  rw [view, List.length_drop, List.length_take, Nat.min_eq_left room]

theorem rd_view (cp : List Nat) (n i k : Nat) : rd cp n (i + k) = (view cp n i)[k]? := by
  rw [rd, view, List.getElem?_drop]

theorem sees_view (p : Nat → Bool) (j : Nat) : sees cp n p j = (view cp n j).head?.map p := by
  have read := rd_view cp n j 0
  rw [Nat.add_zero] at read
  rw [sees, read, List.head?_eq_getElem?]

theorem sees_in_view (room : n ≤ cp.length) (p : Nat → Bool) (j : Nat) :
    seesIn cp n p j = some ((view cp n j).head?.any p) := by
  have size := view_length room j
  rw [seesIn, sees_view]
  cases rest : view cp n j with
  | nil =>
      rw [rest, List.length_nil] at size
      rw [if_neg (by omega)]
      rfl
  | cons c s =>
      rw [rest, List.length_cons] at size
      rw [if_pos (by omega)]
      rfl

theorem scan_view (room : n ≤ cp.length) (p : Nat → Bool) (i most fuel : Nat) {j : Nat}
    (start : i ≤ j) (enough : n - j ≤ fuel) :
    scan cp n p i most fuel j = some (j + min (scanRun p (view cp n j)) (most - (j - i))) := by
  induction fuel generalizing j with
  | zero =>
      have empty : view cp n j = [] := by
        apply List.eq_nil_of_length_eq_zero
        rw [view_length room]
        omega
      rw [scan, empty]
      simp [scanRun]
  | succ fuel induction =>
      rw [scan, sees_in_view room]
      have behind := view_add cp n j 1
      cases rest : view cp n j with
      | nil => simp [branch, scanRun]
      | cons c s =>
          rw [rest, List.drop_one, List.tail_cons] at behind
          rw [scan_run_cons]
          cases here : p c with
          | false => simp [branch, here]
          | true =>
              by_cases more : j - i < most
              · have next := induction (j := j + 1) (by omega) (by omega)
                simp only [branch, List.head?_cons, Option.any_some, here, Option.bind_some,
                  if_true, if_pos more, next, behind]
                congr 1
                omega
              · simp only [branch, List.head?_cons, Option.any_some, here, Option.bind_some,
                  if_true, if_neg more]
                congr 1
                omega

theorem run_view (room : n ≤ cp.length) (p : Nat → Bool) (j : Nat) :
    run cp n p j = some (j + scanRun p (view cp n j)) := by
  have short := scan_run_le p (view cp n j)
  rw [view_length room] at short
  rw [run, scan_view room p j n n (Nat.le_refl j) (Nat.sub_le n j), Nat.sub_self]
  congr 1
  omega

theorem last_newline_view (count : Nat) {k : Nat} (last : Option Nat)
    (inside : count ≤ (view cp n k).length) :
    lastNewline cp n count k last =
      some (((lastWhere newline ((view cp n k).take count)).map (k + ·)).or last) := by
  induction count generalizing k last with
  | zero => simp [lastNewline, lastWhere]
  | succ count induction =>
      have behind := view_add cp n k 1
      rw [lastNewline, sees_view]
      cases rest : view cp n k with
      | nil =>
          rw [rest] at inside
          cases inside
      | cons c s =>
          rw [rest, List.drop_one, List.tail_cons] at behind
          rw [rest, List.length_cons] at inside
          have next := induction (k := k + 1) (if newline c then some k else last)
            (by rw [behind]; omega)
          rw [List.head?_cons, Option.map_some, Option.bind_some, next, behind, List.take_succ_cons,
            lastWhere]
          cases later : lastWhere newline (s.take count) with
          | some m =>
              simp only [Option.map_some, Option.some_or]
              congr 2
              omega
          | none =>
              cases newline c with
              | true => simp
              | false => simp

/-! ## Each splitter moves as the one over the rest -/

theorem branch_some {α : Type} (b : Bool) (yes no : Option α) :
    branch (some b) yes no = if b = true then yes else no := rfl

theorem and_also_some (a b : Bool) : andAlso (some a) (some b) = some (a && b) := by
  cases a <;> rfl

theorem contraction_view (room : n ≤ cp.length) (i : Nat) :
    contractionLen cp n i = some (Tok.contractionLen (view cp n i)) := by
  have size := view_length room i
  have here := rd_view cp n i 0
  have first := rd_view cp n i 1
  have second := rd_view cp n i 2
  rw [Nat.add_zero] at here
  rw [contractionLen, here, first, second]
  generalize view cp n i = rest at size ⊢
  rcases rest with _ | ⟨c, _ | ⟨x, s⟩⟩
  · rw [List.length_nil] at size
    rw [if_pos (by omega)]
    rfl
  · simp only [List.length_cons, List.length_nil] at size
    rw [if_neg (by omega), if_pos (show n ≤ i + 1 by omega)]
    simp [Tok.contractionLen]
  · simp only [List.length_cons] at size
    rw [if_neg (by omega), if_neg (show ¬n ≤ i + 1 by omega)]
    cases s with
    | nil =>
        simp only [List.length_nil] at size
        rw [if_neg (by omega)]
        simp [Tok.contractionLen, apply_ite some]
    | cons y s =>
        simp only [List.length_cons] at size
        rw [if_pos (by omega)]
        simp [Tok.contractionLen, apply_ite some]

theorem gpt2_contraction_view (room : n ≤ cp.length) {i : Nat} (inside : i < n) :
    gpt2Contraction cp n i = some (Tok.gpt2Contraction (view cp n i)) := by
  have size := view_length room i
  have here := rd_view cp n i 0
  have first := rd_view cp n i 1
  have second := rd_view cp n i 2
  rw [Nat.add_zero] at here
  rw [gpt2Contraction, here, first, second]
  generalize view cp n i = rest at size ⊢
  rcases rest with _ | ⟨c, _ | ⟨x, s⟩⟩
  · simp only [List.length_nil] at size
    omega
  · simp only [List.length_cons, List.length_nil] at size
    have last : ¬i + 1 < n := by omega
    simp [Tok.gpt2Contraction, last]
  · simp only [List.length_cons] at size
    have more : i + 1 < n := by omega
    by_cases quote : c = cpQuote
    · cases s with
      | nil =>
          simp only [List.length_nil] at size
          have last : ¬i + 2 < n := by omega
          simp [Tok.gpt2Contraction, quote, more, last, apply_ite some]
      | cons y s =>
          simp only [List.length_cons] at size
          have third : i + 2 < n := by omega
          simp [Tok.gpt2Contraction, quote, more, third, apply_ite some]
    · simp [Tok.gpt2Contraction, quote]

theorem space_tail_view (room : n ≤ cp.length) (joins : Nat → Bool) (i : Nat) :
    spaceTail cp n joins i = some (i + Tok.spaceTail joins (view cp n i)) := by
  have short := scan_run_le cpSpace (view cp n i)
  have size := view_length room i
  have behind := view_add cp n i (scanRun cpSpace (view cp n i))
  rw [spaceTail, run_view room, Option.bind_some, Nat.add_sub_cancel_left, Tok.spaceTail,
    last_newline_view _ none short, Option.bind_some, Option.or_none]
  cases last : lastWhere newline ((view cp n i).take (scanRun cpSpace (view cp n i))) with
  | some k => simp [Nat.add_assoc]
  | none =>
      simp only [Option.map_none]
      by_cases more : i + scanRun cpSpace (view cp n i) < n ∧ 1 < scanRun cpSpace (view cp n i)
      · rw [if_pos more, sees_view, behind]
        have left : (view cp n i).drop (scanRun cpSpace (view cp n i)) ≠ [] := by
          intro empty
          have none_ := List.drop_eq_nil_iff.mp empty
          omega
        cases rest : (view cp n i).drop (scanRun cpSpace (view cp n i)) with
        | nil => exact absurd rest left
        | cons c s =>
            rw [List.head?_cons, Option.map_some, branch_some]
            simp only [Option.any_some, more.2, and_true]
            by_cases follows : joins c = true
            · rw [if_pos follows, if_pos follows]
              congr 1
              omega
            · rw [if_neg follows, if_neg follows]
      · rw [if_neg more, branch_some, if_neg Bool.false_ne_true]
        rw [if_neg]
        rintro ⟨follows, two⟩
        apply more
        refine ⟨?_, two⟩
        by_contra over_
        rw [List.drop_eq_nil_of_le (by omega)] at follows
        cases follows

/-- The position where a run of punctuation begins, behind a space that may lead it. -/
theorem lead_space_view (room : n ≤ cp.length) (p : Nat → Bool) {i : Nat} (inside : i < n) :
    branch (andAlso (sees cp n (exactly cpSpaceChar) i) (seesIn cp n p (i + 1))) (some (i + 1))
        (some i) =
      some (i + if (view cp n i).head? = some cpSpaceChar ∧ (view cp n i).tail.head?.any p = true
        then 1 else 0) := by
  have size := view_length room i
  rw [sees_view, sees_in_view room, view_add, List.drop_one]
  cases rest : view cp n i with
  | nil =>
      rw [rest, List.length_nil] at size
      omega
  | cons c s =>
      rw [List.head?_cons, Option.map_some, and_also_some, branch_some, List.tail_cons]
      by_cases both : (exactly cpSpaceChar c && s.head?.any p) = true
      · have parts : c = cpSpaceChar ∧ s.head?.any p = true := by
          simpa [exactly] using both
        rw [if_pos both, if_pos ⟨congrArg some parts.1, parts.2⟩]
      · have parts : ¬(some c = some cpSpaceChar ∧ s.head?.any p = true) := by
          rintro ⟨space, follows⟩
          apply both
          rw [Option.some.inj space, follows]
          rfl
        rw [if_neg both, if_neg parts, Nat.add_zero]

theorem punct_run_view (room : n ≤ cp.length) (p body tail : Nat → Bool) {i : Nat} (inside : i < n)
    (rest : Option Nat) :
    punctRun cp n p body tail i rest =
      let s := view cp n i
      let j := if s.head? = some cpSpaceChar ∧ s.tail.head?.any p = true then 1 else 0
      if (s.drop j).head?.any p = true then
        some (i + (j + scanRun body (s.drop j) +
          scanRun tail (s.drop (j + scanRun body (s.drop j)))))
      else rest := by
  rw [punctRun, lead_space_view room p inside, Option.bind_some, sees_in_view room, view_add,
    branch_some, run_view room, Option.bind_some, run_view room]
  simp only [view_add, Nat.add_assoc]

theorem punct_run_option (room : n ≤ cp.length) (p tail : Nat → Bool) {i : Nat} (inside : i < n)
    (rest : Nat) :
    punctRun cp n p p tail i (some (i + rest)) =
      some (i + match Tok.punctRun p tail (view cp n i) with
        | some j => j
        | none => rest) := by
  rw [punct_run_view room p p tail inside, Tok.punctRun]
  simp only
  split_ifs <;> rfl

theorem view_some (room : n ≤ cp.length) {i : Nat} (inside : i < n) :
    ∃ c s, view cp n i = c :: s ∧ view cp n (i + 1) = s := by
  have size := view_length room i
  have behind := view_add cp n i 1
  cases rest : view cp n i with
  | nil =>
      rw [rest, List.length_nil] at size
      omega
  | cons c s =>
      rw [rest, List.drop_one, List.tail_cons] at behind
      exact ⟨c, s, rfl, behind⟩

theorem sees_any (room : n ≤ cp.length) (p : Nat → Bool) {i : Nat} (inside : i < n) :
    sees cp n p i = some ((view cp n i).head?.any p) := by
  obtain ⟨c, s, rest, _⟩ := view_some room inside
  rw [sees_view, rest]
  rfl

theorem branch_and {α : Type} (a b : Bool) (yes no : Option α) :
    branch (andAlso (some a) (some b)) yes no = if a = true ∧ b = true then yes else no := by
  cases a with
  | false => rfl
  | true => cases b <;> rfl

theorem pre_view (maxDigits : Nat) (room : n ≤ cp.length) {i : Nat} (inside : i < n) :
    preSplitNext maxDigits cp n i = some (i + Tok.preSplitNext maxDigits (view cp n i)) := by
  have next := view_add cp n i 1
  have punct := punct_run_option room cpOther newline inside
    (Tok.spaceTail (fun _ => true) (view cp n i))
  rw [← space_tail_view room] at punct
  rw [List.drop_one] at next
  rw [preSplitNext, contraction_view room, Option.bind_some, Tok.preSplitNext]
  by_cases contracted : Tok.contractionLen (view cp n i) ≠ 0
  · rw [if_pos contracted, if_pos contracted]
  rw [if_neg contracted, if_neg contracted, punct, sees_any room _ inside, sees_any room _ inside,
    sees_any room _ inside, sees_in_view room, next, run_view room, run_view room, next,
    scan_view room cpDigit i maxDigits n (Nat.le_refl i) (Nat.sub_le n i), branch_and, branch_some,
    branch_some, Nat.sub_self, Nat.sub_zero]
  by_cases lead : (view cp n i).head?.any leads = true ∧
      (view cp n i).tail.head?.any cpLetter = true
  · rw [if_pos lead, if_pos lead, Nat.add_assoc]
  rw [if_neg lead, if_neg lead]
  by_cases letter : (view cp n i).head?.any cpLetter = true
  · rw [if_pos letter, if_pos letter]
  rw [if_neg letter, if_neg letter]
  by_cases digit : (view cp n i).head?.any cpDigit = true
  · rw [if_pos digit, if_pos digit]
  · exact (if_neg digit).trans (congrArg (fun j => some (i + j)) (if_neg digit).symm)

theorem gpt2_view (room : n ≤ cp.length) {i : Nat} (inside : i < n) :
    gpt2SplitNext cp n i = some (i + Tok.gpt2SplitNext (view cp n i)) := by
  obtain ⟨c, s, rest, next⟩ := view_some room inside
  have size := view_length room i
  have lead := lead_space_view room (fun c => !cpSpace c) inside
  rw [gpt2SplitNext, gpt2_contraction_view room inside, Option.bind_some, Tok.gpt2SplitNext]
  by_cases contracted : Tok.gpt2Contraction (view cp n i) ≠ 0
  · rw [if_pos contracted, if_pos contracted]
  rw [if_neg contracted, if_neg contracted, lead, Option.bind_some]
  simp only
  generalize lead_ : (if (view cp n i).head? = some cpSpaceChar ∧
    (view cp n i).tail.head?.any (fun c => !cpSpace c) = true then 1 else 0) = j
  have read := rd_view cp n i j
  rw [← List.head?_drop] at read
  have some_ : (view cp n i).drop j ≠ [] := by
    rw [rest] at lead_ ⊢
    intro empty
    have short := List.drop_eq_nil_iff.mp empty
    rw [← lead_] at short
    split_ifs at short with both
    · have nothing : s = [] := by
        apply List.eq_nil_of_length_eq_zero
        rw [List.length_cons] at short
        omega
      rw [nothing] at both
      cases both.2
    · exact absurd short (by simp)
  cases here : (view cp n i).drop j with
  | nil => exact absurd here some_
  | cons d more =>
      rw [read, here, List.head?_cons, Option.bind_some, run_view room, run_view room, view_add,
        here, Option.bind_some, Nat.add_sub_cancel_left, size]
      simp only
      by_cases space : cpClass d ≠ .space
      · rw [if_pos space, if_pos space, Nat.add_assoc]
      · rw [if_neg space, if_neg space]
        by_cases back : i + scanRun cpSpace (view cp n i) < n ∧ 1 < scanRun cpSpace (view cp n i)
        · rw [if_pos back, if_pos ⟨by omega, back.2⟩]
          congr 1
          omega
        · rw [if_neg back, if_neg]
          rintro ⟨first, second⟩
          exact back ⟨by omega, second⟩

theorem tekken_letters_view (room : n ≤ cp.length) {i : Nat} (inside : i < n) :
    tekkenLetters cp n i = some (i + Tok.tekkenLetters (view cp n i)) := by
  have lead : branch (sees cp n leads i) (some (i + 1)) (some i) =
      some (i + if (view cp n i).head?.any leads = true then 1 else 0) := by
    rw [sees_any room _ inside, branch_some]
    split_ifs <;> rfl
  rw [tekkenLetters, lead, Option.bind_some, Tok.tekkenLetters]
  simp only
  generalize (if (view cp n i).head?.any leads = true then 1 else 0) = j
  rw [sees_in_view room, branch_some, run_view room, Option.bind_some, run_view room,
    Option.bind_some, view_add, view_add, view_add]
  by_cases opens_ : (((view cp n i).drop j).head?.any fun c => cpLetter c || cpMark c) = true
  · have closed : ¬(!((view cp n i).drop j).head?.any fun c => cpLetter c || cpMark c) = true := by
      rw [opens_]
      exact Bool.false_ne_true
    rw [if_pos opens_, if_neg closed, List.drop_drop]
    congr 1
    by_cases some_ : 0 < scanRun cpLetterUpperish ((view cp n i).drop j) +
        scanRun cpLetterLowerish
          ((view cp n i).drop (j + scanRun cpLetterUpperish ((view cp n i).drop j)))
    · rw [if_pos some_]
      split_ifs <;> omega
    · rw [if_neg some_]
      split_ifs <;> omega
  · have closed : (!((view cp n i).drop j).head?.any fun c => cpLetter c || cpMark c) = true := by
      rw [Bool.eq_false_iff.mpr opens_]
      rfl
    rw [if_neg opens_, if_pos closed]
    rfl

theorem tekken_view (room : n ≤ cp.length) {i : Nat} (inside : i < n) :
    tekkenSplitNext cp n i = some (i + Tok.tekkenSplitNext (view cp n i)) := by
  have punct := punct_run_option room cpOther newlineOrSlash inside
    (Tok.spaceTail (fun _ => true) (view cp n i))
  rw [← space_tail_view room] at punct
  rw [tekkenSplitNext, tekken_letters_view room inside, Option.bind_some, punct,
    sees_any room _ inside, branch_some, Tok.tekkenSplitNext]
  by_cases letters_ : 0 < Tok.tekkenLetters (view cp n i)
  · rw [if_pos (by omega), if_pos letters_]
  rw [if_neg (by omega), if_neg letters_]
  by_cases digit : (view cp n i).head?.any cpDigit = true
  · rw [if_pos digit, if_pos digit]
  · exact (if_neg digit).trans (congrArg (fun j => some (i + j)) (if_neg digit).symm)

theorem llama4_view (room : n ≤ cp.length) {i : Nat} (inside : i < n) :
    llama4SplitNext cp n i = some (i + Tok.llama4SplitNext (view cp n i)) := by
  have punct := punct_run_option room cpOther newlineOrSlash inside
    (Tok.spaceTail (fun _ => true) (view cp n i))
  rw [← space_tail_view room] at punct
  rw [llama4SplitNext, tekken_letters_view room inside, Option.bind_some, punct,
    sees_any room _ inside, branch_some, Tok.llama4SplitNext,
    scan_view room cpDigit i 3 n (Nat.le_refl i) (Nat.sub_le n i), Nat.sub_self, Nat.sub_zero]
  by_cases letters_ : 0 < Tok.tekkenLetters (view cp n i)
  · rw [if_pos (by omega), if_pos letters_, contraction_view room, view_add, Option.bind_some,
      Nat.add_assoc]
  rw [if_neg (by omega), if_neg letters_]
  by_cases digit : (view cp n i).head?.any cpDigit = true
  · rw [if_pos digit, if_pos digit]
  · exact (if_neg digit).trans (congrArg (fun j => some (i + j)) (if_neg digit).symm)

theorem afmoe_view (room : n ≤ cp.length) {i : Nat} (inside : i < n) :
    afmoeSplitNext cp n i = some (i + Tok.afmoeSplitNext (view cp n i)) := by
  have next := view_add cp n i 1
  have size := view_length room i
  have punct := punct_run_view room cpPunctSym (fun c => cpPunctSym c && !cpAfmoeCjk c) newline
    inside (spaceTail cp n (fun c => !cpDigit c && !cpAfmoeCjk c) i)
  have lead : branch (sees cp n afmoeLeads i) (some (if i + 1 < n then i + 1 else i)) (some i) =
      some (i + if (view cp n i).head?.any afmoeLeads = true ∧ 1 < (view cp n i).length
        then 1 else 0) := by
    rw [sees_any room _ inside, branch_some, size]
    by_cases opens_ : (view cp n i).head?.any afmoeLeads = true
    · by_cases more : i + 1 < n
      · rw [if_pos opens_, if_pos more, if_pos ⟨opens_, by omega⟩]
      · rw [if_pos opens_, if_neg more, if_neg (by omega)]
        rfl
    · rw [if_neg opens_, if_neg (fun both => opens_ both.1)]
      rfl
  rw [List.drop_one] at next
  rw [afmoeSplitNext, lead, Option.bind_some, Tok.afmoeSplitNext]
  simp only
  generalize (if (view cp n i).head?.any afmoeLeads = true ∧ 1 < (view cp n i).length
    then 1 else 0) = j
  rw [punct, space_tail_view room, sees_in_view room, sees_in_view room, run_view room,
    run_view room, run_view room, run_view room, next, view_add cp n i j, sees_any room _ inside,
    sees_any room _ inside, sees_any room _ inside, branch_and, branch_some, branch_some,
    branch_some, Option.bind_some, Nat.add_sub_cancel_left]
  by_cases digit : (view cp n i).head?.any cpDigit = true
  · rw [if_pos digit, if_pos digit]
  rw [if_neg digit, if_neg digit]
  by_cases cjk : (view cp n i).head?.any cpAfmoeCjk = true
  · rw [if_pos cjk, if_pos cjk]
  rw [if_neg cjk, if_neg cjk]
  by_cases punct_ : (view cp n i).head?.any cpAsciiPunct = true ∧
      (view cp n i).tail.head?.any asciiLetter = true
  · rw [if_pos punct_, if_pos punct_, Nat.add_assoc]
  rw [if_neg punct_, if_neg punct_]
  by_cases body : ((view cp n i).drop j).head?.any afmoeBody = true
  · rw [if_pos body, if_pos body, Nat.add_assoc]
  rw [if_neg body, if_neg body]
  simp only
  generalize (if (view cp n i).head? = some cpSpaceChar ∧
    (view cp n i).tail.head?.any cpPunctSym = true then 1 else 0) = k
  by_cases symbol : ((view cp n i).drop k).head?.any cpPunctSym = true
  · rw [if_pos symbol, if_pos symbol]
  · rw [if_neg symbol, if_neg symbol]

theorem smollm_view (room : n ≤ cp.length) {i : Nat} (inside : i < n) :
    smollmSplitNext cp n i = some (i + Tok.smollmSplitNext (view cp n i)) := by
  obtain ⟨c, s, rest, _⟩ := view_some room inside
  rw [smollmSplitNext, sees_any room _ inside, run_view room, Option.bind_some, branch_some,
    Tok.smollmSplitNext]
  by_cases digit : (view cp n i).head?.any cpDigit = true
  · rw [if_pos digit, if_pos digit]
  · rw [if_neg digit, if_neg digit]
    have short := scan_run_le (fun c => !cpDigit c) (view cp n i)
    have size := view_length room i
    have some_ : 0 < scanRun (fun c => !cpDigit c) (view cp n i) := by
      rw [rest] at digit ⊢
      rw [scan_run_cons]
      simp [show ¬cpDigit c = true from digit]
    have segment : view cp (i + scanRun (fun c => !cpDigit c) (view cp n i)) i =
        (view cp n i).takeWhile fun c => !cpDigit c := by
      rw [view, List.drop_take, Nat.add_sub_cancel_left]
      have whole : view cp n i = (cp.drop i).take (n - i) := by
        rw [view, List.drop_take]
      have front : (cp.drop i).take (scanRun (fun c => !cpDigit c) (view cp n i)) =
          (view cp n i).take (scanRun (fun c => !cpDigit c) (view cp n i)) := by
        conv_rhs => rw [whole]
        rw [List.take_take, ← whole]
        congr 1
        omega
      rw [front, scanRun]
      exact (List.prefix_iff_eq_take.mp (List.takeWhile_prefix _)).symm
    rw [gpt2_view (by omega) (by omega), segment]

/-- Every splitter reads inside, and moves as the one over what is left. -/
theorem split_next_view (pre : Pre) (room : n ≤ cp.length) {i : Nat} (inside : i < n) :
    splitNext pre cp n i = some (i + Tok.splitNext pre (view cp n i)) := by
  cases pre with
  | gpt2 => exact gpt2_view room inside
  | llama3 => exact pre_view 3 room inside
  | qwen2 => exact pre_view 1 room inside
  | smollm => exact smollm_view room inside
  | afmoe => exact afmoe_view room inside
  | tekken => exact tekken_view room inside
  | llama4 => exact llama4_view room inside

end GridcoreRunner.Tok.Cursor
