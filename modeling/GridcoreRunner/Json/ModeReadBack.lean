import GridcoreRunner.Json.ModeTree
import GridcoreRunner.Json.ReadBack

/-!
# What `json_mode` writes and what the parser reads

`jsonv_close` finishes the document that the machine's state shows, so a finished
text is the text of a document, and `json_parse` reads it back exactly when that
document is fine. The grammar of the two machines is the same; what the parser
asks beyond it is not the validator's to see.
-/

namespace GridcoreRunner.Json

set_option autoImplicit false

/-! ## Closing an escape -/

theorem hex_run_zeros {ds : Bytes} {value : Nat} (reads : hexRun ds = some value) (count : Nat) :
    hexRun (ds ++ List.replicate count zero) = some (value * 16 ^ count) := by
  induction count with
  | zero => simpa using reads
  | succ count induction =>
      rw [List.replicate_succ', ← List.append_assoc, hex_run_snoc induction (d := 0) rfl, Nat.pow_succ]
      simp [Nat.mul_assoc]

/-- The tail of an escape turns it into pieces that decode as `OpenEscape.decode` says. -/
def ClosesEscape (escape : OpenEscape) (tail : Bytes) : Prop :=
  ∃ more : Chars, escape.text ++ tail = Chars.text more ∧ Chars.decode more = escape.decode ∧
    ∀ piece ∈ more, piece.Escape

/-- `\uDC00`, the low half every closed pair ends in. -/
theorem close_low_start : closeLow 6 = [backslash, letterU, capitalD, capitalC, zero, zero] ∧
    closeLow 7 = [letterU, capitalD, capitalC, zero, zero] ∧ closeLow 0 = [] := by decide

theorem quad_low_start : ∃ quad : Quad, quad.text = [capitalD, capitalC, zero, zero] ∧
    quad.cp = 0xDC00 :=
  ⟨⟨capitalD, capitalC, zero, zero, 0xDC00, by decide⟩, rfl, rfl⟩

theorem close_code {ds : Bytes} {value sub esc : Nat} (reads : hexRun ds = some value)
    (short : ds.length < 4) (viable : isLow (value * 16 ^ (4 - ds.length)) = false)
    (at_ : sub = 2 + ds.length) (holds : (if ds.length ≠ 0 then esc else 0) = value) :
    ClosesEscape (.code ds value reads short viable) (jsonEscapeClose sub esc) := by
  have bound := hex_run_lt reads
  have full : value * 16 ^ (4 - ds.length) < 2 ^ 16 := by
    have width : 16 ^ ds.length * 16 ^ (4 - ds.length) = 2 ^ 16 := by
      rw [← Nat.pow_add, Nat.add_sub_cancel' (by omega)]
      rfl
    calc value * 16 ^ (4 - ds.length) < 16 ^ ds.length * 16 ^ (4 - ds.length) :=
          Nat.mul_lt_mul_of_pos_right bound (Nat.pow_pos (by decide))
      _ = 2 ^ 16 := width
  have shifted : value <<< (4 * (4 - ds.length)) % 2 ^ 16 = value * 16 ^ (4 - ds.length) := by
    rw [Nat.shiftLeft_eq, Nat.pow_mul]
    exact Nat.mod_eq_of_lt full
  have nth : sub - 2 = ds.length := by omega
  have range : sub ≠ 1 ∧ (2 ≤ sub ∧ sub ≤ 5) := by omega
  simp only [jsonEscapeClose, range, closeDigits, nth, holds, shifted, if_false, and_self, if_true]
  by_cases nul : value * 16 ^ (4 - ds.length) = 0
  · -- zeros would spell U+0000
    have zeroValue : value = 0 := by
      rcases Nat.mul_eq_zero.mp nul with none | power
      · exact none
      · exact absurd power (by positivity)
    have padded := hex_run_snoc (hex_run_zeros reads (3 - ds.length)) (c := one) (d := 1) rfl
    have four : ((ds ++ List.replicate (3 - ds.length) zero) ++ [one]).length = 4 := by
      simp
      omega
    rcases quad_of_run padded four with ⟨quad, text, cp⟩
    have isOne : quad.cp = 1 := by
      rw [cp, zeroValue, Nat.zero_mul]
    have single : quad.cp ≠ 0 ∧ isHigh quad.cp = false ∧ isLow quad.cp = false := by
      rw [isOne]
      decide
    refine ⟨[.code quad single], ?_, ?_, ?_⟩
    · have nothing : closeLow (if isHigh 1 then 6 else 0) = [] := by decide
      simp only [nul, if_true, nothing]
      simp [OpenEscape.text, Piece.text, text]
    · simp [OpenEscape.decode, Piece.decode, nul, isOne]
    · simp [Piece.Escape]
  · have padded := hex_run_zeros reads (4 - ds.length)
    have four : (ds ++ List.replicate (4 - ds.length) zero).length = 4 := by
      simp
      omega
    rcases quad_of_run padded four with ⟨quad, text, cp⟩
    simp only [nul, if_false]
    by_cases half : isHigh (value * 16 ^ (4 - ds.length)) = true
    · rcases quad_low_start with ⟨lower, lowText, lowCp⟩
      have halves : isHigh quad.cp = true ∧ isLow lower.cp = true := by
        rw [cp, lowCp]
        exact ⟨half, by decide⟩
      refine ⟨[.pair quad lower halves], ?_, ?_, ?_⟩
      · simp only [half, if_true, close_low_start]
        simp [OpenEscape.text, Piece.text, text, lowText]
      · simp [OpenEscape.decode, Piece.decode, nul, half, cp, lowCp]
      · simp [Piece.Escape]
    · have single : quad.cp ≠ 0 ∧ isHigh quad.cp = false ∧ isLow quad.cp = false := by
        rw [cp]
        exact ⟨nul, by simpa using half, viable⟩
      refine ⟨[.code quad single], ?_, ?_, ?_⟩
      · simp only [half, Bool.false_eq_true, if_false, close_low_start]
        simp [OpenEscape.text, Piece.text, text]
      · simp [OpenEscape.decode, Piece.decode, nul, half, cp]
      · simp [Piece.Escape]

/-- The digits that finish a low half. -/
theorem close_low_digits {ds : Bytes} {value : Nat} (reads : hexRun ds = some value)
    (short : ds.length < 4) (first : ds.length = 1 → value = 0xD)
    (viable : 2 ≤ ds.length → isLow (value * 16 ^ (4 - ds.length)) = true) :
    ∃ quad : Quad, quad.text = ds ++ [capitalD, capitalC, zero, zero].drop ds.length ∧
      quad.cp = (if ds.length ≤ 1 then 0xDC00 else value * 16 ^ (4 - ds.length)) ∧
      isLow quad.cp = true := by
  have four : (ds ++ [capitalD, capitalC, zero, zero].drop ds.length).length = 4 := by
    simp
    omega
  by_cases few : ds.length ≤ 1
  · have spelled : hexRun (ds ++ [capitalD, capitalC, zero, zero].drop ds.length) = some 0xDC00 := by
      match ds, few with
      | [], _ => decide
      | [c], _ =>
          have digit : value = 0xD := first rfl
          have start : hexRun ([c] ++ [capitalC]) = some (value * 16 + 12) :=
            hex_run_snoc reads rfl
          have padded := hex_run_zeros start 2
          rw [digit] at padded
          exact padded
    rcases quad_of_run spelled four with ⟨quad, text, cp⟩
    exact ⟨quad, text, by rw [if_pos few, cp], by rw [cp]; decide⟩
  · have many : 2 ≤ ds.length := by omega
    have zeros : [capitalD, capitalC, zero, zero].drop ds.length =
        List.replicate (4 - ds.length) zero := by
      rcases (by omega : ds.length = 2 ∨ ds.length = 3) with two | three
      · rw [two]
        rfl
      · rw [three]
        rfl
    rw [zeros] at four ⊢
    rcases quad_of_run (hex_run_zeros reads (4 - ds.length)) four with ⟨quad, text, cp⟩
    exact ⟨quad, text, by rw [if_neg few, cp], by rw [cp]; exact viable many⟩

/-- `json_escape_close` finishes the escape it finds. -/
theorem escape_close {escape : OpenEscape} {sub esc : Nat} (shows : escape.Shows sub esc) :
    ClosesEscape escape (jsonEscapeClose sub esc) := by
  cases escape with
  | none =>
      cases shows
      exact ⟨[], rfl, rfl, by simp⟩
  | slash =>
      cases shows
      exact ⟨[.short letterN 0x0a rfl], rfl, rfl, by simp [Piece.Escape]⟩
  | code ds value reads short viable => exact close_code reads short viable shows.1 shows.2
  | high quad half =>
      cases shows
      rcases quad_low_start with ⟨lower, lowText, lowCp⟩
      have halves : isHigh quad.cp = true ∧ isLow lower.cp = true := by
        rw [lowCp]
        exact ⟨half, by decide⟩
      have tail : jsonEscapeClose 6 esc = closeLow 6 := rfl
      exact ⟨[.pair quad lower halves],
        by simp [tail, close_low_start, OpenEscape.text, Piece.text, lowText],
        by simp [OpenEscape.decode, Piece.decode, lowCp], by simp [Piece.Escape]⟩
  | highSlash quad half =>
      cases shows
      rcases quad_low_start with ⟨lower, lowText, lowCp⟩
      have halves : isHigh quad.cp = true ∧ isLow lower.cp = true := by
        rw [lowCp]
        exact ⟨half, by decide⟩
      have tail : jsonEscapeClose 7 esc = closeLow 7 := rfl
      exact ⟨[.pair quad lower halves],
        by simp [tail, close_low_start, OpenEscape.text, Piece.text, lowText],
        by simp [OpenEscape.decode, Piece.decode, lowCp], by simp [Piece.Escape]⟩
  | low quad half ds value reads short first viable =>
      have at_ : sub = 8 + ds.length := shows.1
      rcases close_low_digits reads short first viable with ⟨lower, lowText, lowCp, lowHalf⟩
      have tail : jsonEscapeClose sub esc =
          [capitalD, capitalC, zero, zero].drop ds.length := by
        have range : sub ≠ 1 ∧ ¬(2 ≤ sub ∧ sub ≤ 5) ∧ sub ≠ 6 ∧ sub ≠ 7 ∧ 8 ≤ sub ∧ sub ≤ 11 := by
          omega
        have nth : sub - 8 = ds.length := by omega
        simp [jsonEscapeClose, closeLow, range, nth]
      exact ⟨[.pair quad lower ⟨half, lowHalf⟩],
        by simp [tail, OpenEscape.text, Piece.text, lowText],
        by simp [OpenEscape.decode, Piece.decode, lowCp], by simp [Piece.Escape]⟩

/-- A string that is closed decodes as its open form says, and is fine when that is. -/
theorem open_chars_close {s : OpenChars} {sub esc : Nat} (shows : s.escape.Shows sub esc) :
    ∃ full : Chars, s.text ++ jsonEscapeClose sub esc = Chars.text full ∧
      Chars.decode full = s.decode ∧ Chars.fine full = s.fine := by
  rcases escape_close shows with ⟨more, text, decode, escapes⟩
  have ascii : Utf8.Ascii (Chars.text more) := by
    intro b member
    rcases List.mem_flatMap.mp member with ⟨piece, inside, here⟩
    exact Piece.ascii (escapes piece inside) b here
  refine ⟨s.chars ++ more, ?_, ?_, ?_⟩
  · rw [chars_text_append, OpenChars.text, List.append_assoc, text]
  · rw [chars_decode_append, OpenChars.decode, decode]
  · unfold Chars.fine OpenChars.fine Chars.fine
    rw [chars_text_append]
    exact Utf8.well_formed_append_ascii ascii

/-! ## Closing a number -/

theorem numeral_close (numeral : OpenNumeral) :
    ∃ n : Numeral, n.text = numeral.text ++ numeral.filler := by
  have digit : isDigit zero = true := by decide
  cases numeral with
  | minus => exact ⟨bareNumeral [minus] [zero] (Or.inr rfl) (Or.inl rfl), rfl⟩
  | whole n bare => exact ⟨n, by simp [OpenNumeral.text, OpenNumeral.filler]⟩
  | point n bare =>
      exact ⟨withFraction n [zero] (digits_one digit),
        by simp [OpenNumeral.text, OpenNumeral.filler, Numeral.text, withFraction, bare]⟩
  | fraction n part => exact ⟨n, by simp [OpenNumeral.text, OpenNumeral.filler]⟩
  | marker n e left_ =>
      exact ⟨withExponent n e [] [zero] left_.2 (Or.inl rfl) (digits_one digit),
        by simp [OpenNumeral.text, OpenNumeral.filler, Numeral.text, withExponent, left_.1]⟩
  | signed n e s left_ =>
      exact ⟨withExponent n e [s] [zero] left_.2.1 left_.2.2 (digits_one digit),
        by simp [OpenNumeral.text, OpenNumeral.filler, Numeral.text, withExponent, left_.1]⟩
  | power n part => exact ⟨n, by simp [OpenNumeral.text, OpenNumeral.filler]⟩

/-! ## Closing the containers -/

/-- The tail after a value that ends on the path. -/
def endTail (v : Jsonv) : Bytes :=
  closeContainers (valueDone v).st (valueDone v).done (valueDone v).stack

theorem end_tail_path {v : Jsonv} {path : Path} (stack : v.stack = path.lids)
    (running : v.done = false) : endTail v = path.lids.map Lid.closer := by
  unfold endTail
  rw [value_done_stack]
  induction path generalizing v with
  | top lead => simp [stack, Path.lids, closeContainers]
  | inside outer lid early label induction =>
      have inner : v.stack = lid :: outer.lids := stack
      have outside := @induction { jsonvInit with stack := outer.lids, st := .after } rfl rfl
      simp only [valueDone, inner, List.cons_ne_nil, if_false, closeContainers, running, true_or,
        and_self, if_true, Path.lids, List.map_cons, List.cons.injEq, true_and]
      exact outside

/-- The tail of a state in which a value has just ended. -/
theorem closing_settled {v : Jsonv} (settled : v.Settled) :
    closeColon v = ([], v) ∧ closeKey v = ([], v) ∧ closeLiteral v = ([], v) ∧
      closeNumber v = ([], v) ∧ closeWhole v = ([], v) ∧ closeValue v = ([], v) := by
  rcases settled with st | st <;>
    simp [closeColon, closeKey, closeLiteral, closeNumber, closeWhole, closeValue, st]

/-- `null` and the containers around it. -/
theorem closing_value {v : Jsonv} (st : v.st = .value ∨ v.st = .arrFirst) :
    closeKey v = ([], v) ∧ closeLiteral v = ([], v) ∧ closeNumber v = ([], v) ∧
      closeWhole v = ([], v) ∧ closeValue v = (nullText, valueDone v) := by
  rcases st with st | st <;>
    simp [closeKey, closeLiteral, closeNumber, closeWhole, closeValue, st]

/-- The machine is inside a text. -/
def Jsonv.Awake (v : Jsonv) : Prop := ¬(v.st = .start ∨ v.done = true)

theorem closing_tail_value {v : Jsonv} (awake : v.Awake) (st : v.st = .value ∨ v.st = .arrFirst) :
    closingTail v = nullText ++ endTail v := by
  have rest := closing_value st
  have string : closeString v = ([], v) := by rcases st with st | st <;> simp [closeString, st]
  have colon : closeColon v = ([], v) := by rcases st with st | st <;> simp [closeColon, st]
  rw [closingTail, if_neg awake]
  simp [string, colon, rest, endTail]

theorem closing_tail_colon {v : Jsonv} (awake : v.Awake) (st : v.st = .colon) :
    closingTail v = colon :: (nullText ++ endTail { v with st := .value }) := by
  have rest := closing_value (v := { v with st := .value }) (Or.inl rfl)
  have string : closeString v = ([], v) := by simp [closeString, st]
  have sign : closeColon v = ([colon], { v with st := .value }) := by simp [closeColon, st]
  rw [closingTail, if_neg awake]
  simp [string, sign, rest, endTail]

theorem closing_tail_key_expect {v : Jsonv} (awake : v.Awake) (st : v.st = .keyExpect) :
    closingTail v =
      [quote, underscore, quote, colon] ++ (nullText ++ endTail { v with st := .value }) := by
  have rest := closing_value (v := { v with st := .value }) (Or.inl rfl)
  have string : closeString v = ([], v) := by simp [closeString, st]
  have sign : closeColon v = ([], v) := by simp [closeColon, st]
  have key : closeKey v = ([quote, underscore, quote, colon], { v with st := .value }) := by
    simp [closeKey, st]
  rw [closingTail, if_neg awake]
  simp [string, sign, key, rest, endTail]

theorem closing_tail_key {v : Jsonv} (awake : v.Awake) (st : v.st = .key) :
    closingTail v = jsonEscapeClose v.sub v.esc ++ (quote :: colon ::
      (nullText ++ endTail { v with st := .value })) := by
  have rest := closing_value (v := { v with st := .value }) (Or.inl rfl)
  have string : closeString v =
      (jsonEscapeClose v.sub v.esc ++ [quote], { v with st := .colon }) := by
    simp [closeString, st]
  have sign : closeColon { v with st := .colon } = ([colon], { v with st := .value }) := by
    simp [closeColon]
  rw [closingTail, if_neg awake]
  simp [string, sign, rest, endTail]

theorem closing_tail_string {v : Jsonv} (awake : v.Awake) (st : v.st = .string) :
    closingTail v = jsonEscapeClose v.sub v.esc ++ (quote :: endTail v) := by
  have rest := closing_settled (value_done_settled v)
  have string : closeString v = (jsonEscapeClose v.sub v.esc ++ [quote], valueDone v) := by
    simp [closeString, st]
  rw [closingTail, if_neg awake]
  simp [string, rest, endTail]

theorem closing_tail_literal {v : Jsonv} (awake : v.Awake) (st : v.st = .lit) :
    closingTail v = (LITS v.lit).drop v.sub ++ endTail v := by
  have rest := closing_settled (value_done_settled v)
  have string : closeString v = ([], v) := by simp [closeString, st]
  have sign : closeColon v = ([], v) := by simp [closeColon, st]
  have key : closeKey v = ([], v) := by simp [closeKey, st]
  have literal : closeLiteral v = ((LITS v.lit).drop v.sub, valueDone v) := by
    simp [closeLiteral, st]
  rw [closingTail, if_neg awake]
  simp [string, sign, key, literal, rest, endTail]

/-- An open number gets the zero it needs. -/
theorem closing_tail_number {v : Jsonv} {numeral : OpenNumeral} (awake : v.Awake)
    (shows : numeral.Shows v.st) : closingTail v = numeral.filler ++ endTail v := by
  have rest := closing_settled (value_done_settled v)
  have parts : closeString v = ([], v) ∧ closeColon v = ([], v) ∧ closeKey v = ([], v) ∧
      closeLiteral v = ([], v) ∧
        (closeNumber v = (numeral.filler, valueDone v) ∨
          (numeral.filler = [] ∧ closeNumber v = ([], v) ∧ closeWhole v = ([], valueDone v))) := by
    cases numeral with
    | whole n bare =>
        rcases shows with ⟨st, _⟩ | ⟨st, _⟩ <;>
          simp [closeString, closeColon, closeKey, closeLiteral, closeNumber, closeWhole, st,
            OpenNumeral.filler]
    | _ =>
        have st := shows
        simp only [OpenNumeral.Shows] at st
        simp [closeString, closeColon, closeKey, closeLiteral, closeNumber, closeWhole, st,
          OpenNumeral.filler]
  rcases parts with ⟨string, sign, key, literal, filled | ⟨none, number, whole⟩⟩
  · rw [closingTail, if_neg awake]
    simp [string, sign, key, literal, filled, rest, endTail]
  · rw [closingTail, if_neg awake]
    simp [string, sign, key, literal, none, number, whole, rest, endTail]

/-- After a value or an opening brace the containers close at once. -/
theorem closing_tail_after {v : Jsonv} {lid : Lid} {path : Path} (awake : v.Awake)
    (st : v.st = .after ∨ v.st = .keyOrEnd) (stack : v.stack = lid :: path.lids) :
    closingTail v = lid.closer :: path.lids.map Lid.closer := by
  have running : v.done = false := by
    rw [← Bool.not_eq_true]
    exact fun done_ => awake (Or.inr done_)
  have parts : closeString v = ([], v) ∧ closeColon v = ([], v) ∧ closeKey v = ([], v) ∧
      closeLiteral v = ([], v) ∧ closeNumber v = ([], v) ∧ closeWhole v = ([], v) ∧
        closeValue v = ([], v) := by
    rcases st with st | st <;>
      simp [closeString, closeColon, closeKey, closeLiteral, closeNumber, closeWhole, closeValue,
        st]
  have outside := @end_tail_path { jsonvInit with stack := path.lids, st := v.st } path rfl rfl
  rw [endTail, value_done_stack] at outside
  rw [closingTail, if_neg awake]
  simp only [parts, List.nil_append, stack, closeContainers, running, st, and_self, if_true,
    List.cons.injEq, true_and]
  exact outside

theorem closing_tail_done {v : Jsonv} (done_ : v.done = true) : closingTail v = [] := by
  simp [closingTail, done_]

/-! ## The document that is left -/

/-- The tail finishes a document, and this is fine when the open document is. -/
def Finishes (o : Open) (tail : Bytes) : Prop :=
  ∃ (lead : Blank) (doc : Doc), o.text ++ tail = lead.val ++ doc.text ∧
    doc.fine maxDepth = o.fine

theorem finishes_path {o : Open} {path : Path} {doc : Doc} {tail : Bytes}
    (text : o.text ++ tail = path.text ++ (doc.text ++ path.lids.map Lid.closer))
    (fine : o.fine = (path.fine && doc.fine (maxDepth - path.depth))) : Finishes o tail :=
  ⟨(path.close doc).1, (path.close doc).2, by rw [text, path_close_text],
    by rw [path_close_fine, fine]⟩

theorem room_left (depth : Nat) : decide (0 < maxDepth - depth) = decide (depth < maxDepth) := by
  simp only [decide_eq_decide]
  omega

theorem path_inside_depth (outer : Path) (lid : Lid) (early : Body lid) (label : Label lid) :
    (Path.inside outer lid early label).depth = outer.depth + 1 := rfl

/-- The member the tail gives an object: a name and `null`. -/
theorem finishes_member {o : Open} {path : Path} {early : Body .brace} {name : Name}
    {tail : Bytes}
    (text : o.text ++ tail = path.text ++ lbrace :: (early.text ++ (name.text ++ (colon ::
      (nullText ++ (Path.inside path .brace early (.member name Blank.none)).lids.map Lid.closer)))))
    (fine : o.fine = (path.fine && early.fine (maxDepth - (path.depth + 1)) &&
      (name.chars.fine && decide (name.chars.decode ∉ early.keys)) &&
        decide (path.depth + 1 < maxDepth))) : Finishes o tail := by
  refine @finishes_path o (.inside path .brace early (.member name Blank.none))
    (.leaf (.literal .null)) tail ?_ ?_
  · rw [text]
    simp [Path.text, Label.text, Blank.none, Doc.text, Scalar.text, Literal.text, Lid.opener]
  · rw [fine, path_inside_depth]
    simp only [Path.fine, Label.fine, Doc.fine, Scalar.fine, room_left, Bool.and_true]

/-- A machine that shows an open document is inside a text. -/
theorem awake_of_at {v : Jsonv} {st : St} {stack : List Lid} (at_ : v.At st stack)
    (other : st ≠ .start) : v.Awake := by
  rintro (start | done_)
  · exact other (at_.1.symm.trans start)
  · rw [at_.2.2] at done_
    cases done_

/-- The tail of every state finishes the document the state shows. -/
theorem closing_tail_finishes {v : Jsonv} {o : Open} (shows : o.Shows v) (begun : o ≠ .start) :
    Finishes o (closingTail v) := by
  cases o with
  | start => exact absurd rfl begun
  | value path =>
      rcases shows with ⟨st, stack, running⟩
      have awake := awake_of_at ⟨st, stack, running⟩ (by decide)
      refine @finishes_path _ path (.leaf (.literal .null)) _ ?_ ?_
      · rw [closing_tail_value awake (Or.inl st), end_tail_path stack running]
        simp [Open.text, Doc.text, Scalar.text, Literal.text]
      · simp only [Open.fine, Doc.fine, Scalar.fine, room_left, Bool.and_true]
  | opened path lid blank =>
      cases lid with
      | brace =>
          rcases shows with ⟨st, stack, running⟩
          have awake := awake_of_at ⟨st, stack, running⟩ (by decide)
          refine @finishes_path _ path (.empty .brace blank) _ ?_ ?_
          · rw [closing_tail_after awake (Or.inr st) stack]
            simp [Open.text, Doc.text]
          · simp only [Open.fine, Doc.fine, room_left]
      | bracket =>
          rcases shows with ⟨st, stack, running⟩
          have awake := awake_of_at ⟨st, stack, running⟩ (by decide)
          refine @finishes_path _ (.inside path .bracket (.none .bracket) (.item blank))
            (.leaf (.literal .null)) _ ?_ ?_
          · rw [closing_tail_value awake (Or.inr st)]
            have outside := @end_tail_path v
              (.inside path .bracket (.none .bracket) (.item blank)) stack running
            rw [outside]
            simp [Open.text, Path.text, Body.text, Label.text, Doc.text, Scalar.text, Literal.text]
          · rw [path_inside_depth]
            simp only [Open.fine, Path.fine, Body.fine, Label.fine, Doc.fine, Scalar.fine, room_left,
              Bool.and_true]
  | keyExpect path early blank =>
      rcases shows with ⟨st, stack, running⟩
      have awake := awake_of_at ⟨st, stack, running⟩ (by decide)
      have plain : 0x20 ≤ underscore ∧ underscore ≠ quote ∧ underscore ≠ backslash := by decide
      refine @finishes_member _ path early ⟨blank, [.raw underscore plain], Blank.none⟩ _ ?_ ?_
      · have outside := @end_tail_path { v with st := .value } (.inside path .brace early
          (.member ⟨blank, [.raw underscore plain], Blank.none⟩ Blank.none)) stack running
        rw [closing_tail_key_expect awake st, outside]
        simp [Open.text, Name.text, Piece.text, Blank.none]
      · have ascii : Chars.fine [.raw underscore plain] = true := by
          show Utf8.wellFormed [underscore] = true
          decide
        simp [Open.fine, ascii, Piece.decode]
  | key path early before chars =>
      rcases shows with ⟨⟨st, stack, running⟩, escape⟩
      have awake := awake_of_at ⟨st, stack, running⟩ (by decide)
      rcases open_chars_close escape with ⟨full, text, decode, fine⟩
      refine @finishes_member _ path early ⟨before, full, Blank.none⟩ _ ?_ ?_
      · have outside := @end_tail_path { v with st := .value } (.inside path .brace early
          (.member ⟨before, full, Blank.none⟩ Blank.none)) stack running
        rw [closing_tail_key awake st, outside]
        simp only [Open.text, Name.text, Blank.none, ← text]
        simp
      · simp only [Open.fine, decode, fine]
  | colon path early name =>
      rcases shows with ⟨st, stack, running⟩
      have awake := awake_of_at ⟨st, stack, running⟩ (by decide)
      refine @finishes_member _ path early name _ ?_ rfl
      have outside := @end_tail_path { v with st := .value } (.inside path .brace early
        (.member name Blank.none)) stack running
      rw [closing_tail_colon awake st, outside]
      simp [Open.text]
  | string path chars =>
      rcases shows with ⟨⟨st, stack, running⟩, escape⟩
      have awake := awake_of_at ⟨st, stack, running⟩ (by decide)
      rcases open_chars_close escape with ⟨full, text, decode, fine⟩
      refine @finishes_path _ path (.leaf (.string full)) _ ?_ ?_
      · rw [closing_tail_string awake st, end_tail_path stack running]
        simp only [Open.text, Doc.text, Scalar.text, ← text]
        simp
      · simp only [Open.fine, Doc.fine, Scalar.fine, room_left, fine, Bool.and_assoc]
  | number path numeral =>
      rcases shows with ⟨⟨st, stack, running⟩, open_⟩
      have awake : v.Awake := by
        apply awake_of_at ⟨st, stack, running⟩
        intro start
        rw [start] at open_
        cases numeral <;> simp [OpenNumeral.Shows] at open_
      rcases numeral_close numeral with ⟨n, text⟩
      refine @finishes_path _ path (.leaf (.number n)) _ ?_ ?_
      · rw [closing_tail_number awake open_, end_tail_path stack running]
        simp [Open.text, Doc.text, Scalar.text, text]
      · simp only [Open.fine, Doc.fine, Scalar.fine, room_left, text, Bool.and_assoc]
  | literal path name count =>
      rcases shows with ⟨⟨st, stack, running⟩, which, at_, short⟩
      have awake := awake_of_at ⟨st, stack, running⟩ (by decide)
      refine @finishes_path _ path (.leaf (.literal name)) _ ?_ ?_
      · rw [closing_tail_literal awake st, end_tail_path stack running, which, at_]
        simp only [Open.text, Doc.text, Scalar.text, List.append_assoc]
        rw [← List.append_assoc (name.text.take count), List.take_append_drop]
      · simp only [Open.fine, Doc.fine, Scalar.fine, room_left, Bool.and_true]
  | after path lid early label doc trail =>
      rcases shows with ⟨st, stack, running⟩
      have awake := awake_of_at ⟨st, stack, running⟩ (by decide)
      refine @finishes_path _ path (.full lid early label doc trail) _ ?_ ?_
      · rw [closing_tail_after awake (Or.inl st) stack]
        simp [Open.text, Doc.text]
      · have level : maxDepth - (path.depth + 1) = maxDepth - path.depth - 1 := by omega
        simp only [Open.fine, Doc.fine, level, Bool.and_assoc]
  | done lead doc =>
      refine ⟨lead, doc, ?_, rfl⟩
      rw [closing_tail_done shows.2]
      simp [Open.text]

/-! ## Reading back -/

theorem init_shows : Open.start.Shows jsonvInit := ⟨rfl, rfl, rfl⟩

theorem init_any_shows : (Open.value (.top Blank.none)).Shows jsonvInitAny := ⟨rfl, rfl, rfl⟩

/-- An accepted text is the text of the document its state shows. -/
theorem accepted_text {v v' : Jsonv} {p : Bytes} (start : v = jsonvInit ∨ v = jsonvInitAny)
    (fed : jsonvFeed v p = some v') : ∃ o : Open, o.text = p ∧ o.Shows v' := by
  have shown : ∃ o : Open, o.text = [] ∧ o.Shows v := by
    rcases start with rfl | rfl
    · exact ⟨.start, rfl, init_shows⟩
    · exact ⟨.value (.top Blank.none), rfl, init_any_shows⟩
  rcases shown with ⟨first, empty, shows⟩
  rcases jsonv_feed_text shows fed with ⟨o, follows, text⟩
  rw [empty, List.nil_append] at text
  exact ⟨o, text, follows⟩

/-- The text with its closing tail can be read back when the open document is fine. -/
theorem closed_read_back {v : Jsonv} {o : Open} (shows : o.Shows v) :
    (jsonParse (o.text ++ closingTail v)).isSome = o.fine := by
  by_cases begun : o = .start
  · subst begun
    have tail : closingTail v = [] := by simp [closingTail, shows.1]
    rw [tail]
    decide
  · rcases closing_tail_finishes shows begun with ⟨lead, doc, whole, fine⟩
    rw [whole, json_parse_doc, fine]
    cases o.fine <;> rfl

/-- The validator and the parser agree about a text, finished by the validator or by
its closing tail, exactly when the document the text has begun is fine. -/
theorem json_mode_read_back (v v' : Jsonv) (p : Bytes) (cap : Nat)
    (start : v = jsonvInit ∨ v = jsonvInitAny) (fed : jsonvFeed v p = some v')
    (fits : (closingTail v').length < cap) :
    (∃ o : Open, o.text = p ∧ o.Shows v') ∧
      ∀ o : Open, o.text = p → o.Shows v' →
        (v'.done = true → ((jsonParse p).isSome ↔ o.fine)) ∧
          ((jsonParse (p ++ jsonvClose v' cap)).isSome ↔ o.fine) := by
  refine ⟨accepted_text start fed, fun o text shows => ?_⟩
  have agrees := closed_read_back shows
  rw [text] at agrees
  constructor
  · intro done_
    rw [closing_tail_done done_, List.append_nil] at agrees
    rw [agrees]
  · have unclipped : jsonvClose v' cap = closingTail v' := List.take_of_length_le (by omega)
    rw [unclipped, agrees]

/-- `{"a":[` and its state, inside an object and an array. -/
def openArray : Bytes := [lbrace, quote, 0x61, quote, colon, lbracket]

def openArrayState : Jsonv :=
  { stack := [.bracket, .brace], st := .arrFirst, sub := 0, lit := 0, done := false, esc := 0 }

theorem open_array_read_back :
    (∃ o : Open, o.text = openArray ∧ o.Shows openArrayState) ∧
      ∀ o : Open, o.text = openArray → o.Shows openArrayState →
        (openArrayState.done = true → ((jsonParse openArray).isSome ↔ o.fine)) ∧
          ((jsonParse (openArray ++ jsonvClose openArrayState 8)).isSome ↔ o.fine) :=
  json_mode_read_back jsonvInit openArrayState openArray 8 (Or.inl rfl) rfl (by decide)

/-- `{"a":null,"a":null}`. -/
def repeatedName : Bytes :=
  [lbrace, quote, 0x61, quote, colon] ++ nullText ++
    [comma, quote, 0x61, quote, colon] ++ nullText ++ [rbrace]

/-- `{"_":null,`, which the closer finishes with a second `_`. -/
def openMember : Bytes := [lbrace, quote, underscore, quote, colon] ++ nullText ++ [comma]

/-- A repeated name is a finished document to the validator and none to the parser,
and the closer writes one. -/
theorem repeated_name_refused :
    (jsonvFeed jsonvInit repeatedName).map Jsonv.done = some true ∧
      (jsonParse repeatedName).isSome = false ∧
      ((jsonvFeed jsonvInit openMember).map fun v =>
        (jsonParse (openMember ++ jsonvClose v 64)).isSome) = some false := by
  decide +kernel

end GridcoreRunner.Json
