import Mathlib.Data.List.Induction
import GridcoreRunner.Json.Mode
import GridcoreRunner.Json.Open

/-!
# The validator follows the syntax tree

`Open.Shows` says which micro-state stands for which unfinished document. A byte
that the machine accepts extends the document by that byte, so every text it
accepts is the text of an unfinished document its state shows.
-/

namespace GridcoreRunner.Json

set_option autoImplicit false

/-- `sub` and `esc` stand for the escape. -/
def OpenEscape.Shows (sub esc : Nat) : OpenEscape → Prop
  | .none => sub = 0
  | .slash => sub = 1
  | .code ds value .. => sub = 2 + ds.length ∧ (if ds.length ≠ 0 then esc else 0) = value
  | .high .. => sub = 6
  | .highSlash .. => sub = 7
  | .low _ _ ds value .. => sub = 8 + ds.length ∧ (if ds.length ≠ 0 then esc else 0) = value

def OpenNumeral.Shows (st : St) : OpenNumeral → Prop
  | .minus => st = .numMinus
  | .whole n _ => (st = .numZero ∧ n.whole = [zero]) ∨
      (st = .numInt ∧ Digits n.whole ∧ n.whole.head? ≠ some zero)
  | .point .. => st = .numFrac0
  | .fraction .. => st = .numFrac
  | .marker .. => st = .numExp0
  | .signed .. => st = .numExp1
  | .power .. => st = .numExp

/-- The machine is in a micro-state, inside these containers. -/
def Jsonv.At (v : Jsonv) (st : St) (stack : List Lid) : Prop :=
  v.st = st ∧ v.stack = stack ∧ v.done = false

def Open.Shows (v : Jsonv) : Open → Prop
  | .start => v.At .start []
  | .value path => v.At .value path.lids
  | .opened path .brace _ => v.At .keyOrEnd (.brace :: path.lids)
  | .opened path .bracket _ => v.At .arrFirst (.bracket :: path.lids)
  | .keyExpect path _ _ => v.At .keyExpect (.brace :: path.lids)
  | .key path _ _ chars => v.At .key (.brace :: path.lids) ∧ chars.escape.Shows v.sub v.esc
  | .colon path _ _ => v.At .colon (.brace :: path.lids)
  | .string path chars => v.At .string path.lids ∧ chars.escape.Shows v.sub v.esc
  | .number path numeral => v.At v.st path.lids ∧ numeral.Shows v.st
  | .literal path name count =>
      v.At .lit path.lids ∧ LITS v.lit = name.text ∧ v.sub = count ∧ count < name.text.length
  | .after path lid _ _ _ _ => v.At .after (lid :: path.lids)
  | .done _ _ => v.st = .done ∧ v.done = true

/-- The state shows a document with this text. -/
def ShowsText (v : Jsonv) (text : Bytes) : Prop := ∃ o : Open, o.Shows v ∧ o.text = text

/-! ## Values that end -/

/-- What a finished value leaves: the document, or an entry of the innermost container. -/
def Path.finish : Path → Doc → Open
  | .top lead, doc => .done lead doc
  | .inside outer lid early label, doc => .after outer lid early label doc Blank.none

theorem path_finish_text (path : Path) (doc : Doc) :
    (path.finish doc).text = path.text ++ doc.text := by
  cases path <;> simp [Path.finish, Open.text, Path.text, Blank.none]

theorem value_done_shows {v : Jsonv} {path : Path} (stack : v.stack = path.lids)
    (running : v.done = false) (doc : Doc) : (path.finish doc).Shows (valueDone v) := by
  cases path with
  | top lead => simp [Path.finish, Open.Shows, valueDone, stack, Path.lids]
  | inside outer lid early label =>
      simp [Path.finish, Open.Shows, valueDone, stack, Path.lids, Jsonv.At, running]

theorem value_done_text {v : Jsonv} {path : Path} (stack : v.stack = path.lids)
    (running : v.done = false) (doc : Doc) {text : Bytes} (spelled : text = path.text ++ doc.text) :
    ShowsText (valueDone v) text := by
  refine ⟨path.finish doc, value_done_shows stack running doc, ?_⟩
  rw [path_finish_text, spelled]

/-! ## Strings -/

theorem hex_run_append (ds : Bytes) (c : UInt8) :
    hexRun (ds ++ [c]) =
      (hexRun ds).bind fun value => (hexDigit c).map (value * 16 + ·) := by
  unfold hexRun
  simp [List.foldlM_append]

theorem hex_run_snoc {ds : Bytes} {value d : Nat} {c : UInt8} (reads : hexRun ds = some value)
    (digit : hexDigit c = some d) : hexRun (ds ++ [c]) = some (value * 16 + d) := by
  simp [hex_run_append, reads, digit]

theorem hex_run_four (a b c d : UInt8) : hexRun [a, b, c, d] = hex4 a b c d := by
  unfold hexRun hex4
  cases first : hexDigit a <;> cases second : hexDigit b <;> cases third : hexDigit c <;>
    cases fourth : hexDigit d <;> simp [first, second, third, fourth]

theorem hex_run_lt {ds : Bytes} {value : Nat} (reads : hexRun ds = some value) :
    value < 16 ^ ds.length := by
  induction ds using List.reverseRecOn generalizing value with
  | nil =>
      cases reads
      decide
  | append_singleton ds c induction =>
      rw [hex_run_append] at reads
      rcases Option.bind_eq_some_iff.mp reads with ⟨front, run, last⟩
      rw [Option.map_eq_some_iff] at last
      rcases last with ⟨d, digit, rfl⟩
      have bound := induction run
      have small := hex_digit_lt digit
      rw [List.length_append, List.length_singleton, Nat.pow_succ]
      omega

/-- Four digits are a `Quad`. -/
theorem quad_of_run {ds : Bytes} {value : Nat} (reads : hexRun ds = some value)
    (four : ds.length = 4) : ∃ quad : Quad, quad.text = ds ∧ quad.cp = value := by
  match ds, four with
  | [a, b, c, d], _ =>
      rw [hex_run_four] at reads
      exact ⟨⟨a, b, c, d, value, reads⟩, rfl, rfl⟩

/-- The escape and the pieces it may have become show the state and spell the text. -/
def EscapeText (sub esc : Nat) (text : Bytes) : Prop :=
  ∃ (chars : Chars) (escape : OpenEscape), escape.Shows sub esc ∧
    Chars.text chars ++ escape.text = text

/-- A digit that the machine takes keeps the number away from the low halves. -/
theorem viable_next {count value d : Nat} (more : count < 3) (bound : value < 16 ^ count)
    (small : d < 16) (viable : isLow (value * 16 ^ (4 - count)) = false)
    (taken : ¬(count = 1 ∧ value * 16 + d ≥ 0xDC ∧ value * 16 + d ≤ 0xDF)) :
    isLow ((value * 16 + d) * 16 ^ (4 - (count + 1))) = false := by
  simp only [isLow, Bool.and_eq_false_iff, decide_eq_false_iff_not] at viable ⊢
  match count, more with
  | 0, _ =>
      simp only [Nat.reducePow, Nat.reduceSub, Nat.reduceAdd] at bound ⊢
      clear viable taken
      omega
  | 1, _ =>
      simp only [Nat.reducePow, Nat.reduceSub, Nat.reduceAdd, true_and] at taken ⊢
      clear viable bound
      omega
  | 2, _ =>
      simp only [Nat.reducePow, Nat.reduceSub, Nat.reduceAdd] at bound viable ⊢
      clear taken
      omega

theorem viable_last {value d : Nat} (small : d < 16) (viable : isLow (value * 16) = false) :
    isLow (value * 16 + d) = false := by
  simp only [isLow, Bool.and_eq_false_iff, decide_eq_false_iff_not] at viable ⊢
  omega

/-- A digit of a first half. -/
theorem code_digit {ds : Bytes} {value sub esc : Nat} {c : UInt8} {next : Nat × Nat}
    (reads : hexRun ds = some value) (short : ds.length < 4)
    (viable : isLow (value * 16 ^ (4 - ds.length)) = false) (at_ : sub = 2 + ds.length)
    (holds : (if ds.length ≠ 0 then esc else 0) = value)
    (fed : jsonEscapeHex sub esc c = some next) :
    EscapeText next.1 next.2 (backslash :: letterU :: (ds ++ [c])) := by
  rcases Option.bind_eq_some_iff.mp fed with ⟨d, digit, taken⟩
  have bound := hex_run_lt reads
  have small := hex_digit_lt digit
  have run := hex_run_snoc reads digit
  have notLow : decide (8 ≤ sub) = false := by
    rw [at_, decide_eq_false_iff_not]
    omega
  have nth : sub - 2 = ds.length := by omega
  have width : 16 ^ ds.length ≤ 16 ^ 3 := Nat.pow_le_pow_right (by omega) (by omega)
  have val : (value * 16 + d) % 2 ^ 16 = value * 16 + d := Nat.mod_eq_of_lt (by omega)
  simp only [notLow, Bool.false_eq_true, if_false, nth, holds, val, false_and, not_false_eq_true,
    true_and] at taken
  split_ifs at taken with low more nul
  · cases taken
    have later := viable_next more bound small viable low
    refine ⟨[], .code (ds ++ [c]) _ run (by simp; omega) (by simpa using later), ?_, rfl⟩
    simp only [OpenEscape.Shows, List.length_append, List.length_singleton]
    exact ⟨by omega, by simp⟩
  all_goals
    have four : (ds ++ [c]).length = 4 := by simp; omega
    rcases quad_of_run run four with ⟨quad, text, cp⟩
    have three : ds.length = 3 := by omega
    rw [three] at viable
    have notLow := viable_last small viable
    cases taken
  · rename_i half
    exact ⟨[], .high quad (by rw [cp]; exact half), rfl, by simp [OpenEscape.text, text]⟩
  · rename_i half
    have single : quad.cp ≠ 0 ∧ isHigh quad.cp = false ∧ isLow quad.cp = false := by
      rw [cp]
      exact ⟨nul, by simpa using half, notLow⟩
    exact ⟨[.code quad single], .none, rfl, by simp [OpenEscape.text, Piece.text, text]⟩

/-- A digit that the machine takes keeps the number among the low halves. -/
theorem low_next {count value d : Nat} (more : count < 3) (bound : value < 16 ^ count)
    (small : d < 16) (viable : 2 ≤ count → isLow (value * 16 ^ (4 - count)) = true)
    (first : ¬(count = 0 ∧ d ≠ 0xD))
    (second : ¬(count = 1 ∧ (value * 16 + d < 0xDC ∨ value * 16 + d > 0xDF))) :
    (count + 1 = 1 → value * 16 + d = 0xD) ∧
      (2 ≤ count + 1 → isLow ((value * 16 + d) * 16 ^ (4 - (count + 1))) = true) := by
  simp only [isLow, Bool.and_eq_true, decide_eq_true_eq] at viable ⊢
  match count, more with
  | 0, _ =>
      simp only [Nat.reducePow, true_and] at bound first
      clear viable second
      exact ⟨fun _ => by omega, fun few => by omega⟩
  | 1, _ =>
      simp only [true_and] at second
      clear viable first bound
      exact ⟨fun few => by omega, fun _ => by omega⟩
  | 2, _ =>
      have before := viable (le_refl 2)
      simp only [Nat.reducePow, Nat.reduceSub, Nat.reduceAdd] at before ⊢
      clear viable first second bound
      exact ⟨fun few => by omega, fun _ => by omega⟩

theorem low_last {value d : Nat} (small : d < 16) (viable : isLow (value * 16) = true) :
    isLow (value * 16 + d) = true := by
  simp only [isLow, Bool.and_eq_true, decide_eq_true_eq] at viable ⊢
  omega

/-- A digit of a second half. -/
theorem low_digit {quad : Quad} (half : isHigh quad.cp = true) {ds : Bytes}
    {value sub esc : Nat} {c : UInt8} {next : Nat × Nat}
    (reads : hexRun ds = some value) (short : ds.length < 4)
    (viable : 2 ≤ ds.length → isLow (value * 16 ^ (4 - ds.length)) = true)
    (at_ : sub = 8 + ds.length) (holds : (if ds.length ≠ 0 then esc else 0) = value)
    (fed : jsonEscapeHex sub esc c = some next) :
    EscapeText next.1 next.2
      (backslash :: letterU :: quad.text ++ backslash :: letterU :: (ds ++ [c])) := by
  rcases Option.bind_eq_some_iff.mp fed with ⟨d, digit, taken⟩
  have bound := hex_run_lt reads
  have small := hex_digit_lt digit
  have run := hex_run_snoc reads digit
  have isLowHalf : decide (8 ≤ sub) = true := by
    rw [at_, decide_eq_true_eq]
    omega
  have nth : sub - 8 = ds.length := by omega
  have width : 16 ^ ds.length ≤ 16 ^ 3 := Nat.pow_le_pow_right (by omega) (by omega)
  have val : (value * 16 + d) % 2 ^ 16 = value * 16 + d := Nat.mod_eq_of_lt (by omega)
  simp only [isLowHalf, if_true, nth, holds, val, true_and, not_true_eq_false, false_and,
    if_false] at taken
  split_ifs at taken with first second more
  · cases taken
    have later := low_next more bound small viable first second
    refine ⟨[], .low quad half (ds ++ [c]) _ run (by simp; omega) (by simpa using later.1)
      (by simpa using later.2), ?_, rfl⟩
    simp only [OpenEscape.Shows, List.length_append, List.length_singleton]
    exact ⟨by omega, by simp⟩
  · have four : (ds ++ [c]).length = 4 := by simp; omega
    rcases quad_of_run run four with ⟨lower, text, cp⟩
    have three : ds.length = 3 := by omega
    rw [three] at viable
    have both : isHigh quad.cp = true ∧ isLow lower.cp = true := by
      rw [cp]
      exact ⟨half, low_last small (viable (by omega))⟩
    cases taken
    exact ⟨[.pair quad lower both], .none, rfl, by simp [OpenEscape.text, Piece.text, text]⟩

theorem short_escape_known {c : UInt8} (short : shortEscape c = true) :
    ∃ b, unescape c = some b := by
  simp only [shortEscape, Bool.or_eq_true, beq_iff_eq] at short
  rcases short with ((((((rfl | rfl) | rfl) | rfl) | rfl) | rfl) | rfl) | rfl <;>
    exact ⟨_, rfl⟩

/-- A byte inside a string ends the string or makes it longer. -/
theorem feed_string {v v' : Jsonv} {s : OpenChars} {c : UInt8}
    (shows : s.escape.Shows v.sub v.esc) (fed : feedString v c = some v') :
    (s.escape = .none ∧ c = quote ∧
        v' = if v.st = .key then { v with st := .colon } else valueDone v) ∨
      ∃ s' : OpenChars, s'.escape.Shows v'.sub v'.esc ∧ s'.text = s.text ++ [c] ∧
        v'.st = v.st ∧ v'.stack = v.stack ∧ v'.done = v.done := by
  rcases s with ⟨chars, escape⟩
  -- an escape that goes on, or has become a piece of the string
  have extend : ∀ sub esc : Nat, EscapeText sub esc (escape.text ++ [c]) →
      ∃ s' : OpenChars, s'.escape.Shows sub esc ∧
        s'.text = (OpenChars.mk chars escape).text ++ [c] := by
    rintro sub esc ⟨more, next, follows, text⟩
    refine ⟨⟨chars ++ more, next⟩, follows, ?_⟩
    simp [OpenChars.text, ← text]
  cases escape with
  | none =>
      have at_ : v.sub = 0 := shows
      have notHex : ¬2 ≤ 0 := by omega
      simp only [feedString, at_, OfNat.zero_ne_ofNat, zero_ne_one, if_false, notHex] at fed
      by_cases closing : c = quote
      · left
        simp only [closing, if_true] at fed
        refine ⟨rfl, closing, ?_⟩
        split_ifs at fed ⊢
        · rw [at_]
          exact (Option.some.inj fed).symm
        · exact (Option.some.inj fed).symm
      right
      simp only [closing, if_false] at fed
      split_ifs at fed with begins printable <;> cases fed
      · rcases extend 1 v.esc ⟨[], .slash, rfl, by simp [OpenEscape.text, begins]⟩
          with ⟨s', follows, text⟩
        exact ⟨s', follows, text, rfl, rfl, rfl⟩
      · rcases extend v.sub v.esc
          ⟨[.raw c ⟨printable, closing, begins⟩], .none, at_, by simp [OpenEscape.text, Piece.text]⟩
          with ⟨s', follows, text⟩
        exact ⟨s', follows, text, rfl, rfl, rfl⟩
  | slash =>
      right
      have at_ : v.sub = 1 := shows
      simp only [feedString, at_, if_true] at fed
      split_ifs at fed with short unicode <;> cases fed
      · rcases short_escape_known short with ⟨b, known⟩
        rcases extend 0 v.esc
          ⟨[.short c b known], .none, rfl, by simp [OpenEscape.text, Piece.text]⟩
          with ⟨s', follows, text⟩
        exact ⟨s', follows, text, rfl, rfl, rfl⟩
      · rcases extend 2 v.esc
          ⟨[], .code [] 0 rfl (by simp) (by decide), ⟨rfl, rfl⟩, by simp [OpenEscape.text, unicode]⟩
          with ⟨s', follows, text⟩
        exact ⟨s', follows, text, rfl, rfl, rfl⟩
  | code ds value reads short viable =>
      right
      have at_ : v.sub = 2 + ds.length := shows.1
      have others : v.sub ≠ 1 ∧ v.sub ≠ 6 ∧ v.sub ≠ 7 ∧ 2 ≤ v.sub := by omega
      simp only [feedString, others, if_true, if_false] at fed
      rcases Option.map_eq_some_iff.mp fed with ⟨next, taken, rfl⟩
      rcases extend _ _ (code_digit reads short viable at_ shows.2 taken) with ⟨s', follows, text⟩
      exact ⟨s', follows, text, rfl, rfl, rfl⟩
  | high quad half =>
      right
      have at_ : v.sub = 6 := shows
      by_cases other : c = backslash
      swap
      · simp [feedString, at_, other] at fed
      simp only [feedString, at_, other, Nat.reduceEqDiff, ne_eq, not_true_eq_false, if_true,
        if_false] at fed
      cases fed
      rcases extend 7 v.esc
        ⟨[], .highSlash quad half, rfl, by simp [OpenEscape.text, other]⟩
        with ⟨s', follows, text⟩
      exact ⟨s', follows, text, rfl, rfl, rfl⟩
  | highSlash quad half =>
      right
      have at_ : v.sub = 7 := shows
      by_cases other : c = letterU
      swap
      · simp [feedString, at_, other] at fed
      simp only [feedString, at_, other, Nat.reduceEqDiff, ne_eq, not_true_eq_false, if_true,
        if_false] at fed
      cases fed
      rcases extend 8 v.esc
        ⟨[], .low quad half [] 0 rfl (by simp) (by simp) (by simp), ⟨rfl, rfl⟩,
          by simp [OpenEscape.text, other]⟩
        with ⟨s', follows, text⟩
      exact ⟨s', follows, text, rfl, rfl, rfl⟩
  | low quad half ds value reads short first viable =>
      right
      have at_ : v.sub = 8 + ds.length := shows.1
      have others : v.sub ≠ 1 ∧ v.sub ≠ 6 ∧ v.sub ≠ 7 ∧ 2 ≤ v.sub := by omega
      simp only [feedString, others, if_true, if_false] at fed
      rcases Option.map_eq_some_iff.mp fed with ⟨next, taken, rfl⟩
      have longer := low_digit half reads short viable at_ shows.2 taken
      rcases extend _ _ (by simpa [OpenEscape.text] using longer) with ⟨s', follows, text⟩
      exact ⟨s', follows, text, rfl, rfl, rfl⟩

/-! ## Numbers -/

theorem digits_one {c : UInt8} (digit : isDigit c = true) : Digits [c] :=
  ⟨by simp, by simpa using digit⟩

theorem digits_snoc {ds : Bytes} {c : UInt8} (digits : Digits ds) (digit : isDigit c = true) :
    Digits (ds ++ [c]) := by
  refine ⟨by simp, fun b member => ?_⟩
  rcases List.mem_append.mp member with old | new
  · exact digits.2 b old
  · rw [List.mem_singleton.mp new]
    exact digit

/-- A numeral of an integer. -/
def bareNumeral (sign whole : Bytes) (signed : sign = [] ∨ sign = [minus]) (wholly : Whole whole) :
    Numeral :=
  ⟨sign, whole, [], [], signed, wholly, Or.inl rfl, Or.inl rfl⟩

theorem fraction_snoc {text : Bytes} {c : UInt8} (fraction : Fraction text) (some_ : text ≠ [])
    (digit : isDigit c = true) : Fraction (text ++ [c]) := by
  rcases fraction with none | ⟨ds, digits, rfl⟩
  · exact absurd none some_
  · exact Or.inr ⟨ds ++ [c], digits_snoc digits digit, rfl⟩

theorem exponent_snoc {text : Bytes} {c : UInt8} (exponent : Exponent text) (some_ : text ≠ [])
    (digit : isDigit c = true) : Exponent (text ++ [c]) := by
  rcases exponent with none | ⟨e, sign, ds, marker, signed, digits, rfl⟩
  · exact absurd none some_
  · exact Or.inr ⟨e, sign, ds ++ [c], marker, signed, digits_snoc digits digit, by simp⟩

/-- The digits after an exponent's marker and sign. -/
def withExponent (n : Numeral) (e : UInt8) (sign ds : Bytes) (marker : Marker e)
    (signed : PowerSign sign) (digits : Digits ds) : Numeral :=
  { n with
    exponent := e :: (sign ++ ds)
    exponential := Or.inr ⟨e, sign, ds, marker, signed, digits, rfl⟩ }

/-- The digits after a numeral's point. -/
def withFraction (n : Numeral) (ds : Bytes) (digits : Digits ds) : Numeral :=
  { n with fraction := dot :: ds, fractional := Or.inr ⟨ds, digits, rfl⟩ }

/-- The state shows an open numeral with this text. -/
def NumeralText (st : St) (text : Bytes) : Prop :=
  ∃ numeral : OpenNumeral, numeral.Shows st ∧ numeral.text = text

theorem whole_zero_text {sign : Bytes} (signed : sign = [] ∨ sign = [minus]) :
    NumeralText .numZero (sign ++ [zero]) :=
  ⟨.whole (bareNumeral sign [zero] signed (Or.inl rfl)) ⟨rfl, rfl⟩, Or.inl ⟨rfl, rfl⟩,
    by simp [OpenNumeral.text, Numeral.text, bareNumeral]⟩

theorem whole_digit_text {sign : Bytes} (signed : sign = [] ∨ sign = [minus]) {ds : Bytes}
    (digits : Digits ds) (proper : ds.head? ≠ some zero) : NumeralText .numInt (sign ++ ds) :=
  ⟨.whole (bareNumeral sign ds signed (Or.inr ⟨digits, proper⟩)) ⟨rfl, rfl⟩,
    Or.inr ⟨rfl, digits, proper⟩, by simp [OpenNumeral.text, Numeral.text, bareNumeral]⟩

theorem digit_from_one {c : UInt8} (low : one ≤ c) (up : c ≤ 0x39) :
    isDigit c = true ∧ c ≠ zero := by
  simp only [isDigit]
  grind

/-- The first digit of a numeral. -/
theorem first_digit_text {sign : Bytes} (signed : sign = [] ∨ sign = [minus]) {c : UInt8}
    (low : one ≤ c) (up : c ≤ 0x39) : NumeralText .numInt (sign ++ [c]) := by
  have digit := digit_from_one low up
  exact whole_digit_text signed (digits_one digit.1) (by simpa using digit.2)

/-- A byte inside a numeral ends the numeral or makes it longer. -/
theorem feed_numeral {v v' : Jsonv} {numeral : OpenNumeral} {c : UInt8} {again : Bool}
    (shows : numeral.Shows v.st) (fed : feedByte v c = some (v', again)) :
    (again = false ∧ NumeralText v'.st (numeral.text ++ [c]) ∧ v'.stack = v.stack ∧
        v'.done = v.done) ∨
      (again = true ∧ v' = valueDone v ∧ ∃ n : Numeral, n.text = numeral.text) := by
  cases numeral with
  | minus =>
      left
      have st : v.st = .numMinus := shows
      simp only [feedByte, st] at fed
      split_ifs at fed with nought digit <;> cases fed
      · exact ⟨rfl, by simpa [nought, OpenNumeral.text] using whole_zero_text (Or.inr rfl), rfl, rfl⟩
      · exact ⟨rfl, first_digit_text (Or.inr rfl) digit.1 digit.2, rfl, rfl⟩
  | whole n bare =>
      have ends : ∃ m : Numeral, m.text = (OpenNumeral.whole n bare).text := ⟨n, rfl⟩
      have point : NumeralText .numFrac0 (n.text ++ [dot]) := ⟨.point n bare, rfl, rfl⟩
      have marker : Marker c → NumeralText .numExp0 (n.text ++ [c]) :=
        fun marker => ⟨.marker n c ⟨bare.2, marker⟩, rfl, rfl⟩
      rcases shows with ⟨st, _⟩ | ⟨st, digits, proper⟩
      · simp only [feedByte, st] at fed
        split_ifs at fed with isDot isMarker <;> cases fed
        · exact Or.inl ⟨rfl, by rw [isDot]; exact point, rfl, rfl⟩
        · exact Or.inl ⟨rfl, marker isMarker, rfl, rfl⟩
        · exact Or.inr ⟨rfl, rfl, ends⟩
      · simp only [feedByte, st] at fed
        split_ifs at fed with digit isDot isMarker <;> cases fed
        · have longer : (n.whole ++ [c]).head? ≠ some zero := by
            rw [List.head?_append_of_ne_nil _ digits.1]
            exact proper
          have text := whole_digit_text n.signed (digits_snoc digits digit) longer
          rw [← st] at text
          exact Or.inl ⟨rfl, by simpa [OpenNumeral.text, Numeral.text, bare] using text, rfl, rfl⟩
        · exact Or.inl ⟨rfl, by rw [isDot]; exact point, rfl, rfl⟩
        · exact Or.inl ⟨rfl, marker isMarker, rfl, rfl⟩
        · exact Or.inr ⟨rfl, rfl, ends⟩
  | point n bare =>
      left
      have st : v.st = .numFrac0 := shows
      simp only [feedByte, st] at fed
      split_ifs at fed with digit <;> cases fed
      refine ⟨rfl, ⟨.fraction (withFraction n [c] (digits_one digit)) ⟨by simp [withFraction],
        bare.2⟩, rfl, ?_⟩, rfl, rfl⟩
      simp [OpenNumeral.text, Numeral.text, withFraction, bare]
  | fraction n part =>
      have st : v.st = .numFrac := shows
      simp only [feedByte, st] at fed
      split_ifs at fed with digit isMarker <;> cases fed
      · left
        have longer := fraction_snoc n.fractional part.1 digit
        refine ⟨rfl, ⟨.fraction { n with fraction := n.fraction ++ [c], fractional := longer }
          ⟨by simp, part.2⟩, st, ?_⟩, rfl, rfl⟩
        simp [OpenNumeral.text, Numeral.text, part.2]
      · exact Or.inl ⟨rfl, ⟨.marker n c ⟨part.2, isMarker⟩, rfl, rfl⟩, rfl, rfl⟩
      · exact Or.inr ⟨rfl, rfl, n, rfl⟩
  | marker n e left_ =>
      left
      have st : v.st = .numExp0 := shows
      simp only [feedByte, st] at fed
      split_ifs at fed with sign digit <;> cases fed
      · have signed : PowerSign [c] := by
          rcases sign with rfl | rfl
          · exact Or.inr (Or.inl rfl)
          · exact Or.inr (Or.inr rfl)
        exact ⟨rfl, ⟨.signed n e c ⟨left_.1, left_.2, signed⟩, rfl,
          by simp [OpenNumeral.text]⟩, rfl, rfl⟩
      · refine ⟨rfl, ⟨.power (withExponent n e [] [c] left_.2 (Or.inl rfl) (digits_one digit))
          (by simp [withExponent]), rfl, ?_⟩, rfl, rfl⟩
        simp [OpenNumeral.text, Numeral.text, withExponent, left_.1]
  | signed n e s left_ =>
      left
      have st : v.st = .numExp1 := shows
      simp only [feedByte, st] at fed
      split_ifs at fed with digit <;> cases fed
      refine ⟨rfl, ⟨.power (withExponent n e [s] [c] left_.2.1 left_.2.2 (digits_one digit))
        (by simp [withExponent]), rfl, ?_⟩, rfl, rfl⟩
      simp [OpenNumeral.text, Numeral.text, withExponent, left_.1]
  | power n part =>
      have st : v.st = .numExp := shows
      simp only [feedByte, st] at fed
      split_ifs at fed with digit <;> cases fed
      · left
        have longer := exponent_snoc n.exponential part digit
        refine ⟨rfl, ⟨.power { n with exponent := n.exponent ++ [c], exponential := longer }
          (by simp), st, ?_⟩, rfl, rfl⟩
        simp [OpenNumeral.text, Numeral.text]
      · exact Or.inr ⟨rfl, rfl, n, rfl⟩

/-! ## One byte -/

theorem push_some {v v' : Jsonv} {lid : Lid} (pushed : push v lid = some v') :
    v' = { v with stack := lid :: v.stack } := by
  unfold push at pushed
  split_ifs at pushed
  exact (Option.some.inj pushed).symm

/-- The first byte of a value. -/
theorem feed_value {v v' : Jsonv} {path : Path} {c : UInt8} (stack : v.stack = path.lids)
    (running : v.done = false) (solid : isWs c = false) (fed : feedValue v c = some v') :
    ShowsText v' (path.text ++ [c]) := by
  have number : ∀ {st : St} {v : Jsonv}, v.stack = path.lids → v.done = false → v.st = st →
      NumeralText st [c] → ShowsText v (path.text ++ [c]) := by
    rintro st v stack running rfl ⟨numeral, shows, text⟩
    exact ⟨.number path numeral, ⟨⟨rfl, stack, running⟩, shows⟩, by rw [Open.text, text]⟩
  simp only [feedValue, solid, Bool.false_eq_true, if_false] at fed
  split_ifs at fed with brace bracket string minus nought digit t f n
  · rw [push_some fed]
    exact ⟨.opened path .brace Blank.none, ⟨rfl, by rw [← stack], running⟩,
      by simp [Open.text, Blank.none, brace, Lid.opener]⟩
  · rw [push_some fed]
    exact ⟨.opened path .bracket Blank.none, ⟨rfl, by rw [← stack], running⟩,
      by simp [Open.text, Blank.none, bracket, Lid.opener]⟩
  all_goals cases fed
  · exact ⟨.string path ⟨[], .none⟩, ⟨⟨rfl, stack, running⟩, rfl⟩,
      by simp [Open.text, OpenChars.text, OpenEscape.text, string]⟩
  · exact number stack running rfl ⟨.minus, rfl, by simp [OpenNumeral.text, minus]⟩
  · exact number stack running rfl (by simpa [nought] using whole_zero_text (Or.inl rfl))
  · exact number stack running rfl (first_digit_text (Or.inl rfl) digit.1 digit.2)
  · exact ⟨.literal path .true 1, ⟨⟨rfl, stack, running⟩, rfl, rfl, by decide⟩,
      by simp [Open.text, Literal.text, trueText, t]⟩
  · exact ⟨.literal path .false 1, ⟨⟨rfl, stack, running⟩, rfl, rfl, by decide⟩,
      by simp [Open.text, Literal.text, falseText, f]⟩
  · exact ⟨.literal path .null 1, ⟨⟨rfl, stack, running⟩, rfl, rfl, by decide⟩,
      by simp [Open.text, Literal.text, nullText, n]⟩

/-- A blank in front of a value goes into the innermost entry. -/
def Path.pad (c : UInt8) (ws : isWs c = true) : Path → Path
  | .top lead => .top (lead.snoc c ws)
  | .inside outer .bracket early (.item lead) => .inside outer .bracket early (.item (lead.snoc c ws))
  | .inside outer .brace early (.member name lead) =>
      .inside outer .brace early (.member name (lead.snoc c ws))

theorem path_pad (path : Path) (c : UInt8) (ws : isWs c = true) :
    (path.pad c ws).lids = path.lids ∧ (path.pad c ws).text = path.text ++ [c] := by
  cases path with
  | top lead => simp [Path.pad, Path.lids, Path.text, Blank.snoc]
  | inside outer lid early label =>
      cases label <;> simp [Path.pad, Path.lids, Path.text, Label.text, Blank.snoc]

/-- The container closes. -/
theorem pop_done_text {v : Jsonv} {lid : Lid} {path : Path} (stack : v.stack = lid :: path.lids)
    (running : v.done = false) (doc : Doc) {text : Bytes} (spelled : text = path.text ++ doc.text) :
    ShowsText (valueDone (pop v)) text :=
  @value_done_text (pop v) path (by simp [pop, stack]) running doc text spelled

/-- A byte inside a literal. -/
theorem feed_literal {v v' : Jsonv} {path : Path} {name : Literal} {count : Nat} {c : UInt8}
    (shows : (Open.literal path name count).Shows v) (fed : feedLiteral v c = some v') :
    ShowsText v' ((Open.literal path name count).text ++ [c]) := by
  rcases shows with ⟨⟨st, stack, running⟩, which, at_, short⟩
  simp only [feedLiteral, which, at_] at fed
  by_cases next : name.text[count]? = some c
  swap
  · simp [next] at fed
  have longer : name.text.take (count + 1) = name.text.take count ++ [c] := by
    rw [List.take_add_one, next]
    rfl
  simp only [next, if_true] at fed
  cases fed
  split_ifs with last
  · have whole : (Open.literal path name count).text ++ [c] =
        path.text ++ (Doc.leaf (.literal name)).text := by
      simp only [Open.text, List.append_assoc, Doc.text, Scalar.text]
      rw [← longer, ← last, List.take_length]
    rw [whole]
    exact ⟨path.finish (.leaf (.literal name)),
      @value_done_shows { v with sub := count + 1 } path stack running _,
      path_finish_text _ _⟩
  · refine ⟨.literal path name (count + 1), ⟨⟨st, stack, running⟩, which, rfl, by omega⟩, ?_⟩
    simp only [Open.text, List.append_assoc]
    rw [longer]

/-- A byte that the machine reads extends the text by that byte. A byte that ends
a number is still to be read. -/
theorem feed_byte_text {v v' : Jsonv} {o : Open} {c : UInt8} {again : Bool} (shows : o.Shows v)
    (fed : feedByte v c = some (v', again)) :
    ShowsText v' (if again then o.text else o.text ++ [c]) := by
  cases o with
  | start =>
      rcases shows with ⟨st, stack, running⟩
      simp only [feedByte, st] at fed
      split_ifs at fed with brace
      · rcases Option.map_eq_some_iff.mp fed with ⟨next, pushed, same⟩
        cases same
        rw [push_some pushed]
        exact ⟨.opened (.top Blank.none) .brace Blank.none, ⟨rfl, by rw [stack]; rfl, running⟩,
          by simp [Open.text, Path.text, Blank.none, Lid.opener, brace]⟩
      · cases fed
  | value path =>
      rcases shows with ⟨st, stack, running⟩
      simp only [feedByte, st] at fed
      rcases Option.map_eq_some_iff.mp fed with ⟨next, taken, same⟩
      cases same
      cases ws : isWs c with
      | true =>
          have padded := path_pad path c ws
          simp only [feedValue, ws, if_true] at taken
          cases taken
          exact ⟨.value (path.pad c ws), ⟨st, by rw [stack, padded.1], running⟩, padded.2⟩
      | false => exact feed_value stack running ws taken
  | opened path lid blank =>
      cases lid with
      | brace =>
          rcases shows with ⟨st, stack, running⟩
          simp only [feedByte, st] at fed
          split_ifs at fed with ws string closing <;> cases fed
          · exact ⟨.opened path .brace (blank.snoc c ws), ⟨st, stack, running⟩,
              by simp [Open.text, Blank.snoc]⟩
          · exact ⟨.key path (.none .brace) blank ⟨[], .none⟩, ⟨⟨rfl, stack, running⟩, rfl⟩,
              by simp [Open.text, Body.text, OpenChars.text, OpenEscape.text, Lid.opener, string]⟩
          · exact pop_done_text stack running (.empty .brace blank)
              (by simp [Open.text, Doc.text, Lid.opener, Lid.closer, closing])
      | bracket =>
          rcases shows with ⟨st, stack, running⟩
          simp only [feedByte, st] at fed
          rcases Option.map_eq_some_iff.mp fed with ⟨next, taken, same⟩
          cases same
          split_ifs at taken with closing
          · cases taken
            exact pop_done_text stack running (.empty .bracket blank)
              (by simp [Open.text, Doc.text, Lid.opener, Lid.closer, closing])
          cases ws : isWs c with
          | true =>
              simp only [feedValue, ws, if_true] at taken
              cases taken
              exact ⟨.opened path .bracket (blank.snoc c ws), ⟨st, stack, running⟩,
                by simp [Open.text, Blank.snoc]⟩
          | false =>
              have inside := @feed_value v v' (.inside path .bracket (.none .bracket) (.item blank))
                c stack running ws taken
              simpa [Open.text, Path.text, Body.text, Label.text] using inside
  | keyExpect path early blank =>
      rcases shows with ⟨st, stack, running⟩
      simp only [feedByte, st] at fed
      split_ifs at fed with ws string <;> cases fed
      · exact ⟨.keyExpect path early (blank.snoc c ws), ⟨st, stack, running⟩,
          by simp [Open.text, Blank.snoc]⟩
      · exact ⟨.key path early blank ⟨[], .none⟩, ⟨⟨rfl, stack, running⟩, rfl⟩,
          by simp [Open.text, OpenChars.text, OpenEscape.text, string]⟩
  | key path early before chars =>
      rcases shows with ⟨⟨st, stack, running⟩, escape⟩
      simp only [feedByte, st] at fed
      rcases Option.map_eq_some_iff.mp fed with ⟨next, taken, same⟩
      cases same
      rcases feed_string escape taken with ⟨whole, string, rfl⟩ | ⟨longer, follows, text, frame⟩
      · rw [if_pos st]
        exact ⟨.colon path early ⟨before, chars.chars, Blank.none⟩, ⟨rfl, stack, running⟩,
          by simp [Open.text, Name.text, OpenChars.text, OpenEscape.text, Blank.none, whole, string]⟩
      · exact ⟨.key path early before longer, ⟨⟨frame.1.trans st, frame.2.1.trans stack,
          frame.2.2.trans running⟩, follows⟩, by simp [Open.text, text]⟩
  | colon path early name =>
      rcases shows with ⟨st, stack, running⟩
      simp only [feedByte, st] at fed
      split_ifs at fed with ws sign <;> cases fed
      · exact ⟨.colon path early { name with after := name.after.snoc c ws }, ⟨st, stack, running⟩,
          by simp [Open.text, Name.text, Blank.snoc]⟩
      · exact ⟨.value (.inside path .brace early (.member name Blank.none)),
          ⟨rfl, stack, running⟩, by simp [Open.text, Path.text, Label.text, Blank.none, Lid.opener, sign]⟩
  | string path chars =>
      rcases shows with ⟨⟨st, stack, running⟩, escape⟩
      simp only [feedByte, st] at fed
      rcases Option.map_eq_some_iff.mp fed with ⟨next, taken, same⟩
      cases same
      rcases feed_string escape taken with ⟨whole, string, rfl⟩ | ⟨longer, follows, text, frame⟩
      · rw [if_neg (by rw [st]; decide)]
        apply value_done_text stack running (.leaf (.string chars.chars))
        simp [Open.text, OpenChars.text, OpenEscape.text, Doc.text, Scalar.text, whole, string]
      · exact ⟨.string path longer, ⟨⟨frame.1.trans st, frame.2.1.trans stack,
          frame.2.2.trans running⟩, follows⟩, by simp [Open.text, text]⟩
  | number path numeral =>
      rcases shows with ⟨⟨st, stack, running⟩, open_⟩
      rcases feed_numeral open_ fed with ⟨rfl, ⟨longer, follows, text⟩, same, still⟩ | ⟨rfl, rfl, n, text⟩
      · exact ⟨.number path longer, ⟨⟨rfl, same.trans stack, still.trans running⟩, follows⟩,
          by simp [Open.text, text]⟩
      · apply value_done_text stack running (.leaf (.number n))
        simp [Open.text, Doc.text, Scalar.text, text]
  | literal path name count =>
      have st : v.st = .lit := shows.1.1
      simp only [feedByte, st] at fed
      rcases Option.map_eq_some_iff.mp fed with ⟨next, taken, same⟩
      cases same
      exact feed_literal shows taken
  | after path lid early label doc trail =>
      rcases shows with ⟨st, stack, running⟩
      have top : v.stack.head? = some lid := by rw [stack, List.head?_cons]
      simp only [feedByte, st, top, Option.some.injEq] at fed
      split_ifs at fed with ws nextMember nextItem closes closes <;> cases fed
      · exact ⟨.after path lid early label doc (trail.snoc c ws), ⟨st, stack, running⟩,
          by simp [Open.text, Blank.snoc]⟩
      · rcases nextMember with ⟨rfl, rfl⟩
        exact ⟨.keyExpect path (.snoc early label doc trail) Blank.none, ⟨rfl, stack, running⟩,
          by simp [Open.text, Body.text, Blank.none, Lid.opener]⟩
      · rcases nextItem with ⟨rfl, rfl⟩
        exact ⟨.value (.inside path .bracket (.snoc early label doc trail) (.item Blank.none)),
          ⟨rfl, stack, running⟩,
          by simp [Open.text, Path.text, Body.text, Label.text, Blank.none]⟩
      · rcases closes with ⟨rfl, rfl⟩
        exact pop_done_text stack running (.full .brace early label doc trail)
          (by simp [Open.text, Doc.text, Lid.closer])
      · rcases closes with ⟨rfl, rfl⟩
        exact pop_done_text stack running (.full .bracket early label doc trail)
          (by simp [Open.text, Doc.text, Lid.closer])
  | done lead doc =>
      simp [feedByte, shows.1] at fed

/-! ## Runs -/

/-- A value has just ended. -/
def Jsonv.Settled (v : Jsonv) : Prop := v.st = .after ∨ v.st = .done

theorem value_done_settled (v : Jsonv) : (valueDone v).Settled := by
  unfold valueDone Jsonv.Settled
  split_ifs <;> simp

/-- Only the end of a number leaves its byte to be read again. -/
theorem feed_byte_again {v v' : Jsonv} {c : UInt8} (fed : feedByte v c = some (v', true)) :
    v'.Settled := by
  have ended : some (valueDone v, true) = some (v', true) → v'.Settled := by
    intro same
    cases same
    exact value_done_settled v
  cases st : v.st <;> simp only [feedByte, st] at fed <;> (try split_ifs at fed) <;>
    first
      | exact ended fed
      | cases fed
      | (rcases Option.map_eq_some_iff.mp fed with ⟨next, _, same⟩; cases same)

theorem feed_byte_settled {v v' : Jsonv} {c : UInt8} {again : Bool} (settled : v.Settled)
    (fed : feedByte v c = some (v', again)) : again = false := by
  rcases settled with st | st
  · simp only [feedByte, st] at fed
    rcases Option.map_eq_some_iff.mp fed with ⟨next, _, same⟩
    cases same
    rfl
  · simp [feedByte, st] at fed

theorem feed_round_text {v v' : Jsonv} {o : Open} {c : UInt8} (shows : o.Shows v)
    (fed : feedRound v c = some v') : ShowsText v' (o.text ++ [c]) := by
  rcases Option.bind_eq_some_iff.mp fed with ⟨⟨middle, again⟩, first, rest⟩
  have read := feed_byte_text shows first
  cases again with
  | false =>
      cases rest
      exact read
  | true =>
      rcases read with ⟨o', follows, text⟩
      rcases Option.map_eq_some_iff.mp rest with ⟨⟨last, more⟩, second, same⟩
      cases same
      have done_ := feed_byte_settled (feed_byte_again first) second
      subst done_
      have read := feed_byte_text follows second
      rw [text] at read
      exact read

/-- Every text the machine accepts is the text of the document its state shows. -/
theorem jsonv_feed_text {v v' : Jsonv} {o : Open} {s : Bytes} (shows : o.Shows v)
    (fed : jsonvFeed v s = some v') : ShowsText v' (o.text ++ s) := by
  induction s generalizing v o with
  | nil =>
      cases fed
      exact ⟨o, shows, by simp⟩
  | cons c s induction =>
      simp only [jsonvFeed, List.foldlM_cons] at fed
      rcases Option.bind_eq_some_iff.mp fed with ⟨middle, first, rest⟩
      rcases feed_round_text shows first with ⟨o', follows, text⟩
      have read := induction follows rest
      rw [text, List.append_assoc] at read
      exact read

end GridcoreRunner.Json
