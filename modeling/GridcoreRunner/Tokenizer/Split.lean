import GridcoreRunner.Regex

/-!
# Pre-tokenizer splits

The hand-written splitters of `tokenizer.c`, and the regular expressions of their
comments. A splitter reads the code points from its position to the end of the
text and answers how many of them its piece takes; what it scans past is a count.
A code point is a `Nat`.
-/

namespace GridcoreRunner.Tok

set_option autoImplicit false

open Regex

abbrev cpSpaceChar : Nat := 0x20
abbrev cpCr : Nat := 0x0d
abbrev cpLf : Nat := 0x0a
abbrev cpQuote : Nat := 0x27
abbrev cpSlash : Nat := 0x2f

/-! ## Classes -/

def within (c low high : Nat) : Bool := low ≤ c && c ≤ high

/-- The classes of `cp_class`. -/
inductive CpClass
  | letter | digit | other | space
deriving DecidableEq, Repr

def cpClass (c : Nat) : CpClass :=
  if c = cpSpaceChar ∨ c = 0x09 ∨ c = cpLf ∨ c = cpCr ∨ c = 0x0b ∨ c = 0x0c ∨ c = 0xa0 ∨
      within c 0x2000 0x200a ∨ c = 0x2028 ∨ c = 0x2029 ∨ c = 0x202f ∨ c = 0x205f ∨ c = 0x3000 then
    .space
  else if within c 0x30 0x39 then .digit
  else if within c 0x61 0x7a ∨ within c 0x41 0x5a ∨ 0x80 ≤ c then .letter
  else .other

def cpSymbol (c : Nat) : Bool :=
  within c 0x2000 0x206f || within c 0x2100 0x2bff || within c 0x2e00 0x2e7f ||
    within c 0x3000 0x303f || within c 0xfe00 0xfe0f || within c 0x1f000 0x1faff

def cpMark (c : Nat) : Bool :=
  within c 0x0300 0x036f || within c 0x0900 0x0903 || within c 0x093a 0x094f ||
    within c 0x0951 0x0957 || within c 0x0962 0x0963 || c == 0x0e31 || within c 0x0e34 0x0e3a ||
    within c 0x0e47 0x0e4e

def asciiLetter (c : Nat) : Bool := within c 0x61 0x7a || within c 0x41 0x5a

def cpLetter (c : Nat) : Bool :=
  if cpClass c = .space then false
  else asciiLetter c || 0x80 ≤ c && !cpSymbol c && !cpMark c

def cpDigit (c : Nat) : Bool := within c 0x30 0x39
def cpSpace (c : Nat) : Bool := decide (cpClass c = .space)
def cpOther (c : Nat) : Bool := !cpSpace c && !cpLetter c && !cpDigit c

/-- `'\r'` or `'\n'`. -/
def newline (c : Nat) : Bool := c == cpCr || c == cpLf

def newlineOrSlash (c : Nat) : Bool := newline c || c == cpSlash

def latinExtAUpper (c : Nat) : Bool :=
  if c = 0x138 ∨ c = 0x149 ∨ c = 0x17f then false
  else if c = 0x178 then true
  else if c ≤ 0x137 then c % 2 = 0
  else if c ≤ 0x148 then c % 2 = 1
  else if c ≤ 0x177 then c % 2 = 0
  else c % 2 = 1

def cpUpper (c : Nat) : Bool :=
  if within c 0x41 0x5a then true
  else if c < 0x80 then false
  else if within c 0xc0 0xde then c ≠ 0xd7
  else if within c 0x100 0x17f then latinExtAUpper c
  else if within c 0x1e00 0x1e95 then c % 2 = 0
  else if within c 0x1ea0 0x1eff then c % 2 = 0
  else if within c 0x386 0x3ab then true
  else within c 0x400 0x42f

/-- `latin_ext_a_case` is never zero, so what is not upper case there is lower. -/
def cpLower (c : Nat) : Bool :=
  if within c 0x61 0x7a then true
  else if c < 0x80 then false
  else if within c 0xdf 0xff then c ≠ 0xf7
  else if within c 0x100 0x17f then !latinExtAUpper c
  else if within c 0x1e00 0x1e9f then c % 2 = 1 || 0x1e96 ≤ c
  else if within c 0x1ea0 0x1eff then c % 2 = 1
  else if within c 0x3ac 0x3ce then true
  else within c 0x430 0x45f

def cpLetterUpperish (c : Nat) : Bool := (cpLetter c || cpMark c) && !cpLower c
def cpLetterLowerish (c : Nat) : Bool := (cpLetter c || cpMark c) && !cpUpper c

def cpAfmoeCjk (c : Nat) : Bool :=
  within c 0x4e00 0x9fff || within c 0x3400 0x4dbf || within c 0xf900 0xfaff ||
    within c 0x3040 0x309f || within c 0x30a0 0x30ff || within c 0xff65 0xff9f ||
    within c 0x2f00 0x2fdf || within c 0x0e40 0x0e7f || within c 0x0e80 0x0eff ||
    within c 0x1780 0x17ff || within c 0x1000 0x109f || within c 0xaa60 0xaa7f ||
    within c 0xa9e0 0xa9ff || within c 0xac00 0xd7af || within c 0x1100 0x11ff

def cpAsciiPunct (c : Nat) : Bool :=
  within c 0x21 0x2f || within c 0x3a 0x40 || within c 0x5b 0x60 || within c 0x7b 0x7e

def cpPunctSym (c : Nat) : Bool := cpOther c && !cpMark c

/-! ## The splitters -/

/-- How many code points a scan over one class takes. -/
def scanRun (p : Nat → Bool) (s : List Nat) : Nat := (s.takeWhile p).length

/-- `contraction_len`. -/
def contractionLen : List Nat → Nat
  | c :: x :: s =>
      if c ≠ cpQuote then 0
      else
        let a := x ||| 32
        let b := match s with
          | [] => 0
          | y :: _ => y ||| 32
        if a = 0x73 ∨ a = 0x74 ∨ a = 0x6d ∨ a = 0x64 then 2
        else if (a = 0x72 ∧ b = 0x65) ∨ (a = 0x76 ∧ b = 0x65) ∨ (a = 0x6c ∧ b = 0x6c) then 3
        else 0
  | _ => 0

/-- The last place of a class. -/
def lastWhere (p : Nat → Bool) : List Nat → Option Nat
  | [] => none
  | c :: s =>
      match lastWhere p s with
      | some k => some (k + 1)
      | none => if p c then some 0 else none

/-- The end of a whitespace run. It goes through its last newline, else leaves its
last character to what follows; `joins` is what that could be. -/
def spaceTail (joins : Nat → Bool) (s : List Nat) : Nat :=
  let j := scanRun cpSpace s
  match lastWhere newline (s.take j) with
  | some k => k + 1
  | none => if (s.drop j).head?.any joins ∧ 1 < j then j - 1 else j

/-- An optional leading space and a run of `p`, then a run of `tail`. -/
def punctRun (p tail : Nat → Bool) (s : List Nat) : Option Nat :=
  let j := if s.head? = some cpSpaceChar ∧ s.tail.head?.any p then 1 else 0
  if (s.drop j).head?.any p then
    let k := j + scanRun p (s.drop j)
    some (k + scanRun tail (s.drop k))
  else none

/-- A character that may lead a run of letters: `[^\r\n\p{L}\p{N}]`. -/
def leads (c : Nat) : Bool := !cpLetter c && !cpDigit c && !newline c

def preSplitNext (maxDigits : Nat) (s : List Nat) : Nat :=
  if contractionLen s ≠ 0 then contractionLen s
  else if s.head?.any leads ∧ s.tail.head?.any cpLetter then 1 + scanRun cpLetter s.tail
  else if s.head?.any cpLetter then scanRun cpLetter s
  else if s.head?.any cpDigit then min (scanRun cpDigit s) maxDigits
  else
    match punctRun cpOther newline s with
    | some j => j
    | none => spaceTail (fun _ => true) s

/-- The contractions of `gpt2_split_next`, which tell the cases apart. -/
def gpt2Contraction : List Nat → Nat
  | c :: x :: s =>
      if c ≠ cpQuote then 0
      else
        let b := s.headD 0
        if x = 0x73 ∨ x = 0x74 ∨ x = 0x6d ∨ x = 0x64 then 2
        else if (x = 0x72 ∧ b = 0x65) ∨ (x = 0x76 ∧ b = 0x65) ∨ (x = 0x6c ∧ b = 0x6c) then 3
        else 0
  | _ => 0

def ofClass (k : CpClass) (c : Nat) : Bool := decide (cpClass c = k)

def gpt2SplitNext (s : List Nat) : Nat :=
  if gpt2Contraction s ≠ 0 then gpt2Contraction s
  else
    let j := if s.head? = some cpSpaceChar ∧ s.tail.head?.any (fun c => !cpSpace c) then 1 else 0
    match (s.drop j).head? with
    | none => 0
    | some c =>
        if cpClass c ≠ .space then j + scanRun (ofClass (cpClass c)) (s.drop j)
        else
          let k := scanRun cpSpace s
          if k < s.length ∧ 1 < k then k - 1 else k

/-- `tekken_letters`. -/
def tekkenLetters (s : List Nat) : Nat :=
  let lead := if s.head?.any leads then 1 else 0
  let body := s.drop lead
  if !body.head?.any (fun c => cpLetter c || cpMark c) then 0
  else
    let u := scanRun cpLetterUpperish body
    let j := u + scanRun cpLetterLowerish (body.drop u)
    if 0 < j then lead + j else 0

def tekkenSplitNext (s : List Nat) : Nat :=
  if 0 < tekkenLetters s then tekkenLetters s
  else if s.head?.any cpDigit then 1
  else
    match punctRun cpOther newlineOrSlash s with
    | some j => j
    | none => spaceTail (fun _ => true) s

def llama4SplitNext (s : List Nat) : Nat :=
  if 0 < tekkenLetters s then tekkenLetters s + contractionLen (s.drop (tekkenLetters s))
  else if s.head?.any cpDigit then min (scanRun cpDigit s) 3
  else
    match punctRun cpOther newlineOrSlash s with
    | some j => j
    | none => spaceTail (fun _ => true) s

/-- `[^\r\n\p{L}\p{P}\p{S}]` of `afmoe_split_next`. -/
def afmoeLeads (c : Nat) : Bool := !newline c && !cpLetter c && !cpPunctSym c

def afmoeBody (c : Nat) : Bool := (cpLetter c || cpMark c) && !cpAfmoeCjk c

def afmoeSplitNext (s : List Nat) : Nat :=
  if s.head?.any cpDigit then
    let first := scanRun cpDigit s % 3
    if first ≠ 0 then first else 3
  else if s.head?.any cpAfmoeCjk then scanRun cpAfmoeCjk s
  else if s.head?.any cpAsciiPunct ∧ s.tail.head?.any asciiLetter then
    1 + scanRun asciiLetter s.tail
  else
    let lead := if s.head?.any afmoeLeads ∧ 1 < s.length then 1 else 0
    if (s.drop lead).head?.any afmoeBody then lead + scanRun afmoeBody (s.drop lead)
    else
      let j := if s.head? = some cpSpaceChar ∧ s.tail.head?.any cpPunctSym then 1 else 0
      if (s.drop j).head?.any cpPunctSym then
        let k := j + scanRun (fun c => cpPunctSym c && !cpAfmoeCjk c) (s.drop j)
        k + scanRun newline (s.drop k)
      else spaceTail (fun c => !cpDigit c && !cpAfmoeCjk c) s

def smollmSplitNext (s : List Nat) : Nat :=
  if s.head?.any cpDigit then 1 else gpt2SplitNext (s.takeWhile fun c => !cpDigit c)

/-- The loop over the text; a piece takes at least one code point. -/
def splitPieces (next : List Nat → Nat) : Nat → List Nat → List (List Nat)
  | 0, _ => []
  | _ + 1, [] => []
  | rounds + 1, c :: s =>
      let n := if next (c :: s) = 0 then 1 else next (c :: s)
      (c :: s).take n :: splitPieces next rounds ((c :: s).drop n)

/-- The pieces a splitter cuts a text into. -/
def piecesOf (next : List Nat → Nat) (s : List Nat) : List (List Nat) := splitPieces next s.length s

/-! ## The regular expressions of the comments -/

/-- A caseless ASCII letter, given in lower case. -/
def caseless (x : Nat) (c : Nat) : Bool := c == x || c == x - 32

def exactly (x : Nat) (c : Nat) : Bool := c == x

/-- `'s|'t|'re|'ve|'m|'ll|'d` with letters read by `char`. -/
def contractions (char : Nat → Nat → Bool) : Re Nat :=
  let one (x : Nat) : Re Nat := .seq (.cls (exactly cpQuote)) (.cls (char x))
  let two (x y : Nat) : Re Nat :=
    .seq (.cls (exactly cpQuote)) (.seq (.cls (char x)) (.cls (char y)))
  .alt (one 0x73) (.alt (one 0x74) (.alt (two 0x72 0x65) (.alt (two 0x76 0x65)
    (.alt (one 0x6d) (.alt (two 0x6c 0x6c) (one 0x64))))))

/-- `\s+(?!\S) | \s+`. -/
def trailing : Re Nat :=
  .alt (.seq (.rep cpSpace 1 none) (.notAhead fun c => !cpSpace c)) (.rep cpSpace 1 none)

/-- `\s*[\r\n]+ | \s+(?!\S) | \s+`. -/
def spaces : Re Nat := .alt (.seq (.rep cpSpace 0 none) (.rep newline 1 none)) trailing

/-- A space, `p+`, and `tail*`. -/
def punct (p tail : Nat → Bool) : Re Nat :=
  .seq (.opt (exactly cpSpaceChar)) (.seq (.rep p 1 none) (.rep tail 0 none))

/-- The newer BPE regex. -/
def preRe (maxDigits : Nat) : Re Nat :=
  .alt (contractions caseless) (.alt (.seq (.opt leads) (.rep cpLetter 1 none))
    (.alt (.rep cpDigit 1 (some maxDigits)) (.alt (punct cpOther newline) spaces)))

/-- The original GPT-2 regex; its classes are those of `cp_class`. -/
def gpt2Re : Re Nat :=
  let run (k : CpClass) : Re Nat := .seq (.opt (exactly cpSpaceChar)) (.rep (ofClass k) 1 none)
  .alt (contractions exactly) (.alt (run .letter) (.alt (run .digit) (.alt (run .other) trailing)))

/-- The two letter alternatives of the tekken regex, each followed by `suffix`. -/
def letters (suffix : Re Nat) : Re Nat :=
  .alt
    (.seq (.opt leads) (.seq (.rep cpLetterUpperish 0 none)
      (.seq (.rep cpLetterLowerish 1 none) suffix)))
    (.seq (.opt leads) (.seq (.rep cpLetterUpperish 1 none)
      (.seq (.rep cpLetterLowerish 0 none) suffix)))

def tekkenRe : Re Nat :=
  .alt (letters .eps) (.alt (.cls cpDigit) (.alt (punct cpOther newlineOrSlash) spaces))

/-- The o200k regex. -/
def llama4Re : Re Nat :=
  .alt (letters (.alt (contractions caseless) .eps))
    (.alt (.rep cpDigit 1 (some 3)) (.alt (punct cpOther newlineOrSlash) spaces))

def afmoeRe : Re Nat :=
  .alt (.seq (.cls cpAsciiPunct) (.rep asciiLetter 1 none))
    (.alt (.seq (.opt afmoeLeads) (.rep (fun c => cpLetter c || cpMark c) 1 none))
      (.alt (punct cpPunctSym newline) spaces))

/-! ## The passes in front of a regex -/

/-- Cuts a text into its maximal runs inside and outside of a class. -/
def isolate (p : Nat → Bool) : Nat → List Nat → List (Bool × List Nat)
  | 0, _ => []
  | _ + 1, [] => []
  | rounds + 1, c :: s =>
      let run := (c :: s).takeWhile fun x => p x == p c
      (p c, run) :: isolate p rounds ((c :: s).dropWhile fun x => p x == p c)

def runsOf (p : Nat → Bool) (s : List Nat) : List (Bool × List Nat) := isolate p s.length s

/-- The digits pass of smollm: every digit stands alone. -/
def digitsPass (s : List Nat) : List (List Nat) :=
  (runsOf cpDigit s).flatMap fun (digits, run) => if digits then run.map fun c => [c] else [run]

/-- Groups of three from the left. -/
def threes : Nat → List Nat → List (List Nat)
  | 0, _ => []
  | _ + 1, [] => []
  | rounds + 1, s => s.take 3 :: threes rounds (s.drop 3)

/-- Groups of three from the right. -/
def groups (run : List Nat) : List (List Nat) :=
  gapPiece (run.take (run.length % 3)) ++ threes run.length (run.drop (run.length % 3))

/-- The first pass of afmoe. -/
def groupsPass (s : List Nat) : List (List Nat) :=
  (runsOf cpDigit s).flatMap fun (digits, run) => if digits then groups run else [run]

/-- The second pass of afmoe. -/
def cjkPass (s : List Nat) : List (List Nat) := (runsOf cpAfmoeCjk s).map Prod.snd

def smollmSpec (s : List Nat) : List (List Nat) := (digitsPass s).flatMap gpt2Re.split

def afmoeSpec (s : List Nat) : List (List Nat) :=
  ((groupsPass s).flatMap cjkPass).flatMap afmoeRe.split

end GridcoreRunner.Tok
