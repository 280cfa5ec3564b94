import GridcoreRunner.Json.ModeTree

/-!
# Runs of the validator over a scalar

Which state the machine is in around a value, and what it does with the bytes of a
literal, a numeral or a string: it reads every one of them to its end. A number
ends only with the byte that follows it.
-/

namespace GridcoreRunner.Json

set_option autoImplicit false

def Doc.isNumber : Doc → Bool
  | .leaf (.number _) => true
  | _ => false

/-! ## Runs of the machine -/

/-- The machine reads the text and stops in such a state. -/
def Leads (v : Jsonv) (s : Bytes) (goal : Jsonv → Prop) : Prop :=
  ∃ w, jsonvFeed v s = some w ∧ goal w

theorem jsonv_feed_append (v : Jsonv) (s t : Bytes) :
    jsonvFeed v (s ++ t) = (jsonvFeed v s).bind fun w => jsonvFeed w t :=
  List.foldlM_append

theorem jsonv_feed_cons (v : Jsonv) (c : UInt8) (s : Bytes) :
    jsonvFeed v (c :: s) = (feedRound v c).bind fun w => jsonvFeed w s :=
  List.foldlM_cons

theorem leads_nil {v : Jsonv} {goal : Jsonv → Prop} (here : goal v) : Leads v [] goal :=
  ⟨v, rfl, here⟩

theorem leads_cons {v w : Jsonv} {c : UInt8} {s : Bytes} {goal : Jsonv → Prop}
    (round : feedRound v c = some w) (rest : Leads w s goal) : Leads v (c :: s) goal := by
  rcases rest with ⟨last, fed, reached⟩
  apply Exists.intro last
  rw [jsonv_feed_cons, round]
  exact ⟨fed, reached⟩

theorem leads_append {v : Jsonv} {s t : Bytes} {middle goal : Jsonv → Prop}
    (first : Leads v s middle) (second : ∀ w, middle w → Leads w t goal) :
    Leads v (s ++ t) goal := by
  rcases first with ⟨w, fed, reached⟩
  rcases second w reached with ⟨last, later, there⟩
  apply Exists.intro last
  rw [jsonv_feed_append, fed]
  exact ⟨later, there⟩

/-- A prefix of what the machine reads is read too. -/
theorem accepted_front {v w : Jsonv} {s t : Bytes} (fed : jsonvFeed v (s ++ t) = some w) :
    ∃ middle, jsonvFeed v s = some middle := by
  rw [jsonv_feed_append] at fed
  rcases Option.bind_eq_some_iff.mp fed with ⟨middle, first, _⟩
  exact ⟨middle, first⟩

/-! ## The states around a value -/

/-- A value may begin. -/
def Jsonv.Awaits (v : Jsonv) (stack : List Lid) : Prop :=
  (v.st = .value ∨ v.st = .arrFirst) ∧ v.stack = stack ∧ v.done = false

/-- An entry of the innermost container may begin. -/
def Jsonv.Entry (lid : Lid) (stack : List Lid) (v : Jsonv) : Prop :=
  v.stack = lid :: stack ∧ v.done = false ∧
    match lid with
    | .brace => v.st = .keyOrEnd ∨ v.st = .keyExpect
    | .bracket => v.st = .arrFirst ∨ v.st = .value

/-- A value has ended, and the machine knows it. -/
def Jsonv.Ended (stack : List Lid) (v : Jsonv) : Prop :=
  v.stack = stack ∧ if stack = [] then v.st = .done ∧ v.done = true else v.st = .after ∧ v.done = false

/-- A numeral that is whole as it stands. -/
def Jsonv.Whole (stack : List Lid) (v : Jsonv) : Prop :=
  v.stack = stack ∧ v.done = false ∧
    (v.st = .numZero ∨ v.st = .numInt ∨ v.st = .numFrac ∨ v.st = .numExp)

/-- What has been read is a value: a number ends only with the byte that follows. -/
def Jsonv.Closed (number : Bool) (stack : List Lid) (v : Jsonv) : Prop :=
  v.Ended stack ∨ number = true ∧ v.Whole stack

theorem value_done_ended {v : Jsonv} {stack : List Lid} (same : v.stack = stack)
    (running : v.done = false) : (valueDone v).Ended stack := by
  unfold valueDone Jsonv.Ended
  rw [same]
  split_ifs with empty
  · exact ⟨rfl, rfl, rfl⟩
  · exact ⟨rfl, rfl, running⟩

theorem feed_round_read {v w : Jsonv} {c : UInt8} (byte : feedByte v c = some (w, false)) :
    feedRound v c = some w := by
  simp [feedRound, byte]

/-- The states that skip whitespace. -/
def Jsonv.Skips (v : Jsonv) : Prop :=
  v.st = .value ∨ v.st = .arrFirst ∨ v.st = .keyOrEnd ∨ v.st = .keyExpect ∨ v.st = .colon ∨
    v.st = .after

theorem ws_not_bracket {c : UInt8} (ws : isWs c = true) : c ≠ rbracket := by
  rintro rfl
  exact absurd ws (by decide)

theorem skips_round {v : Jsonv} {c : UInt8} (skips : v.Skips) (ws : isWs c = true) :
    feedRound v c = some v := by
  have other := ws_not_bracket ws
  apply feed_round_read
  rcases skips with st | st | st | st | st | st <;> simp [feedByte, feedValue, st, ws, other]

theorem skips_blank {v : Jsonv} (skips : v.Skips) (blank : Bytes)
    (ws : ∀ c ∈ blank, isWs c = true) : jsonvFeed v blank = some v := by
  induction blank with
  | nil => rfl
  | cons c blank induction =>
      rw [jsonv_feed_cons, skips_round skips (ws c (by simp))]
      exact induction fun b member => ws b (by simp [member])

/-- The bytes that may follow a value inside a container. -/
def Stop (c : UInt8) : Prop := isWs c = true ∨ c = comma ∨ c = rbrace ∨ c = rbracket

theorem stop_ends_number {c : UInt8} (stop : Stop c) :
    isDigit c = false ∧ c ≠ dot ∧ c ≠ letterE ∧ c ≠ capitalE := by
  rcases stop with ws | rfl | rfl | rfl
  · simp only [isWs, Bool.or_eq_true, beq_iff_eq] at ws
    rcases ws with ((rfl | rfl) | rfl) | rfl <;> decide
  all_goals decide

/-- Behind a value the machine reads on as if it had already noticed the end. -/
theorem closed_round {v : Jsonv} {number : Bool} {stack : List Lid} {c : UInt8}
    (closed : v.Closed number stack) (inside : stack ≠ []) (stop : Stop c) :
    ∃ w : Jsonv, w.Ended stack ∧ feedRound v c = feedRound w c := by
  rcases closed with ended | ⟨_, same, running, whole⟩
  · exact ⟨v, ended, rfl⟩
  apply Exists.intro (valueDone v)
  have ended := value_done_ended same running
  apply And.intro ended
  rcases stop_ends_number stop with ⟨digit, point, small, big⟩
  have noticed : feedByte v c = some (valueDone v, true) := by
    rcases whole with st | st | st | st <;> simp [feedByte, st, digit, point, small, big]
  have st : (valueDone v).st = .after := by
    have later := ended.2
    rw [if_neg inside] at later
    exact later.1
  cases next : feedByte (valueDone v) c with
  | none => simp [feedRound, noticed, next]
  | some result =>
      have settled : result.2 = false := feed_byte_settled (Or.inl st) next
      simp [feedRound, noticed, next, settled]

theorem closed_feed {v : Jsonv} {number : Bool} {stack : List Lid} {c : UInt8} {s : Bytes}
    (closed : v.Closed number stack) (inside : stack ≠ []) (stop : Stop c) :
    ∃ w : Jsonv, w.Ended stack ∧ jsonvFeed v (c :: s) = jsonvFeed w (c :: s) := by
  rcases closed_round closed inside stop with ⟨w, ended, same⟩
  exact ⟨w, ended, by rw [jsonv_feed_cons, jsonv_feed_cons, same]⟩

theorem ended_inside {v : Jsonv} {lid : Lid} {stack : List Lid} (ended : v.Ended (lid :: stack)) :
    v.At .after (lid :: stack) := by
  have later := ended.2
  rw [if_neg (List.cons_ne_nil lid stack)] at later
  exact ⟨later.1, ended.1, later.2⟩

/-- The blank after a value, and a byte that stands behind it. -/
theorem closed_trail {v : Jsonv} {number : Bool} {lid : Lid} {stack : List Lid} {c : UInt8}
    {goal : Jsonv → Prop} (closed : v.Closed number (lid :: stack)) (trail : Blank) (stop : Stop c)
    (after : ∀ w : Jsonv, w.At .after (lid :: stack) → Leads w [c] goal) :
    Leads v (trail.val ++ [c]) goal := by
  have inside : lid :: stack ≠ [] := List.cons_ne_nil lid stack
  have settled : ∀ w : Jsonv, w.Ended (lid :: stack) → Leads w (trail.val ++ [c]) goal := by
    intro w ended
    have at_ := ended_inside ended
    have skipped : Leads w trail.val fun u => u = w :=
      ⟨w, skips_blank (by simp [Jsonv.Skips, at_.1]) _ trail.property, rfl⟩
    apply leads_append skipped
    rintro u rfl
    exact after u at_
  rcases trail with ⟨bytes, blank⟩
  cases bytes with
  | nil =>
      rcases closed_feed (s := []) closed inside stop with ⟨w, ended, same⟩
      rcases settled w ended with ⟨last, fed, reached⟩
      exact ⟨last, by simpa using same.trans fed, reached⟩
  | cons first bytes =>
      rcases closed_feed (s := bytes ++ [c]) closed inside (Or.inl (blank first (by simp)))
        with ⟨w, ended, same⟩
      rcases settled w ended with ⟨last, fed, reached⟩
      exact ⟨last, by simpa using same.trans fed, reached⟩

theorem leads_comma {v : Jsonv} {lid : Lid} {stack : List Lid} (at_ : v.At .after (lid :: stack)) :
    Leads v [comma] (Jsonv.Entry lid stack) := by
  rcases at_ with ⟨st, same, running⟩
  cases lid with
  | brace =>
      apply leads_cons (w := { v with st := .keyExpect })
      · exact feed_round_read (by simp [feedByte, st, same, show isWs comma = false by decide])
      · exact leads_nil ⟨same, running, Or.inr rfl⟩
  | bracket =>
      apply leads_cons (w := { v with st := .value })
      · exact feed_round_read (by simp [feedByte, st, same, show isWs comma = false by decide])
      · exact leads_nil ⟨same, running, Or.inr rfl⟩

theorem pop_ended {v : Jsonv} {lid : Lid} {stack : List Lid} (same : v.stack = lid :: stack)
    (running : v.done = false) : (valueDone (pop v)).Ended stack :=
  value_done_ended (by simp [pop, same]) running

theorem leads_closer {v : Jsonv} {lid : Lid} {stack : List Lid} (at_ : v.At .after (lid :: stack)) :
    Leads v [lid.closer] (Jsonv.Ended stack) := by
  rcases at_ with ⟨st, same, running⟩
  apply leads_cons (w := valueDone (pop v))
  · apply feed_round_read
    cases lid with
    | brace =>
        simp [feedByte, st, same, Lid.closer, show isWs rbrace = false by decide,
          show rbrace ≠ comma by decide]
    | bracket =>
        simp [feedByte, st, same, Lid.closer, show isWs rbracket = false by decide,
          show rbracket ≠ comma by decide, show rbracket ≠ rbrace by decide]
  · exact leads_nil (pop_ended same running)

/-! ## Scalars -/

theorem inside_round {v w : Jsonv} {st : St} {stack : List Lid} {c : UInt8}
    (at_ : v.At st stack) (string : st = .key ∨ st = .string) (fed : feedString v c = some w) :
    feedRound v c = some w := by
  apply feed_round_read
  rcases at_ with ⟨here, _, _⟩
  rcases string with rfl | rfl <;> simp [feedByte, here, fed]

/-- A digit of an escape. -/
theorem escape_round {v : Jsonv} {st : St} {stack : List Lid} {c : UInt8} {next : Nat × Nat}
    (at_ : v.At st stack) (string : st = .key ∨ st = .string)
    (digits : v.sub ≠ 1 ∧ v.sub ≠ 6 ∧ v.sub ≠ 7 ∧ 2 ≤ v.sub)
    (taken : jsonEscapeHex v.sub v.esc c = some next) :
    feedRound v c = some { v with sub := next.1, esc := next.2 } := by
  apply inside_round at_ string
  simp [feedString, digits, taken]

theorem quad_digits (quad : Quad) : ∃ x y z w : Nat,
    hexDigit quad.a = some x ∧ hexDigit quad.b = some y ∧ hexDigit quad.c = some z ∧
      hexDigit quad.d = some w ∧ quad.cp = ((x * 16 + y) * 16 + z) * 16 + w := by
  have reads := quad.reads
  unfold hex4 at reads
  rcases Option.bind_eq_some_iff.mp reads with ⟨x, first, reads⟩
  rcases Option.bind_eq_some_iff.mp reads with ⟨y, second, reads⟩
  rcases Option.bind_eq_some_iff.mp reads with ⟨z, third, reads⟩
  rcases Option.map_eq_some_iff.mp reads with ⟨w, fourth, value⟩
  exact ⟨x, y, z, w, first, second, third, fourth, value.symm⟩

/-- `json_escape_hex` takes the four digits one after the other. -/
def TakesQuad (start final : Nat) (quad : Quad) : Prop :=
  ∀ esc : Nat, ∃ x y z : Nat,
    jsonEscapeHex start esc quad.a = some (start + 1, x) ∧
      jsonEscapeHex (start + 1) x quad.b = some (start + 2, y) ∧
      jsonEscapeHex (start + 2) y quad.c = some (start + 3, z) ∧
      jsonEscapeHex (start + 3) z quad.d = some (final, quad.cp)

theorem leads_quad {v : Jsonv} {st : St} {stack : List Lid} (at_ : v.At st stack)
    (string : st = .key ∨ st = .string) {quad : Quad} {start final : Nat}
    (base : v.sub = start) (place : start = 2 ∨ start = 8) (takes : TakesQuad start final quad) :
    Leads v quad.text fun w => w.At st stack ∧ w.sub = final := by
  rcases takes v.esc with ⟨x, y, z, first, second, third, fourth⟩
  have round : ∀ (sub esc : Nat) (c : UInt8) (next : Nat × Nat),
      (sub ≠ 1 ∧ sub ≠ 6 ∧ sub ≠ 7 ∧ 2 ≤ sub) → jsonEscapeHex sub esc c = some next →
        feedRound { v with sub := sub, esc := esc } c =
          some { v with sub := next.1, esc := next.2 } := by
    intro sub esc c next digits hex
    exact @escape_round { v with sub := sub, esc := esc } st stack c next at_ string digits hex
  have here : v = { v with sub := start, esc := v.esc } := by rw [← base]
  rw [here]
  apply leads_cons (round _ _ _ _ (by omega) first)
  apply leads_cons (round _ _ _ _ (by omega) second)
  apply leads_cons (round _ _ _ _ (by omega) third)
  apply leads_cons (round _ _ _ _ (by omega) fourth)
  exact leads_nil ⟨at_, rfl⟩

theorem small_mod {value : Nat} (small : value < 65536) : value % 65536 = value :=
  Nat.mod_eq_of_lt small

/-- The digits of a character, or of a first half. -/
theorem takes_first {quad : Quad} (nonzero : quad.cp ≠ 0) (notLow : isLow quad.cp = false) :
    TakesQuad 2 (if isHigh quad.cp then 6 else 0) quad := by
  intro esc
  rcases quad_digits quad with ⟨x, y, z, w, first, second, third, fourth, value⟩
  have small := hex_digit_lt first
  have smallY := hex_digit_lt second
  have smallZ := hex_digit_lt third
  have smallW := hex_digit_lt fourth
  simp only [isLow, Bool.and_eq_false_iff, decide_eq_false_iff_not] at notLow
  refine ⟨x, x * 16 + y, (x * 16 + y) * 16 + z, ?_, ?_, ?_, ?_⟩
  · simp [jsonEscapeHex, first, small_mod (show x < 65536 by omega)]
  · have apart : ¬(0xDC ≤ x * 16 + y ∧ x * 16 + y ≤ 0xDF) := by omega
    simp only [jsonEscapeHex, second, Option.bind_some]
    simp [small_mod (show x * 16 + y < 65536 by omega)]
    omega
  · simp [jsonEscapeHex, third, small_mod (show (x * 16 + y) * 16 + z < 65536 by omega)]
  · have cp := small_mod (show ((x * 16 + y) * 16 + z) * 16 + w < 65536 by omega)
    rw [← value] at cp
    simp [jsonEscapeHex, fourth, ← value, cp, nonzero]

/-- The digits of a second half. -/
theorem takes_second {quad : Quad} (half : isLow quad.cp = true) : TakesQuad 8 0 quad := by
  intro esc
  rcases quad_digits quad with ⟨x, y, z, w, first, second, third, fourth, value⟩
  have small := hex_digit_lt first
  have smallY := hex_digit_lt second
  have smallZ := hex_digit_lt third
  have smallW := hex_digit_lt fourth
  simp only [isLow, Bool.and_eq_true, decide_eq_true_eq] at half
  have leading : x = 0xD := by omega
  refine ⟨x, x * 16 + y, (x * 16 + y) * 16 + z, ?_, ?_, ?_, ?_⟩
  · simp [jsonEscapeHex, first, leading]
  · simp only [jsonEscapeHex, second, Option.bind_some]
    simp [small_mod (show x * 16 + y < 65536 by omega)]
    omega
  · simp [jsonEscapeHex, third, small_mod (show (x * 16 + y) * 16 + z < 65536 by omega)]
  · have cp := small_mod (show ((x * 16 + y) * 16 + z) * 16 + w < 65536 by omega)
    rw [← value] at cp
    simp [jsonEscapeHex, fourth, ← value, cp]

/-- Inside a string, between two of its pieces. -/
def Jsonv.Inside (st : St) (stack : List Lid) (v : Jsonv) : Prop := v.At st stack ∧ v.sub = 0

theorem inside_backslash {v : Jsonv} {st : St} {stack : List Lid} (inside : v.Inside st stack)
    (string : st = .key ∨ st = .string) : feedRound v backslash = some { v with sub := 1 } := by
  apply inside_round inside.1 string
  simp [feedString, inside.2, show backslash ≠ quote by decide]

theorem inside_unicode {v : Jsonv} {st : St} {stack : List Lid} (at_ : v.At st stack)
    (sub : v.sub = 1) (string : st = .key ∨ st = .string) :
    feedRound v letterU = some { v with sub := 2 } := by
  apply inside_round at_ string
  simp [feedString, sub, show shortEscape letterU = false by decide]

/-- A backslash, `u` and the digits of a character. -/
theorem leads_code {v : Jsonv} {st : St} {stack : List Lid} (inside : v.Inside st stack)
    (string : st = .key ∨ st = .string) {quad : Quad} (nonzero : quad.cp ≠ 0)
    (notLow : isLow quad.cp = false) :
    Leads v (backslash :: letterU :: quad.text) fun w =>
      w.At st stack ∧ w.sub = if isHigh quad.cp then 6 else 0 := by
  apply leads_cons (inside_backslash inside string)
  apply leads_cons (inside_unicode (v := { v with sub := 1 }) inside.1 rfl string)
  exact leads_quad (v := { v with sub := 2 }) inside.1 string rfl (Or.inl rfl)
    (takes_first nonzero notLow)

/-- The second half of a pair. -/
theorem leads_low {v : Jsonv} {st : St} {stack : List Lid} (at_ : v.At st stack) (sub : v.sub = 6)
    (string : st = .key ∨ st = .string) {quad : Quad} (half : isLow quad.cp = true) :
    Leads v (backslash :: letterU :: quad.text) (Jsonv.Inside st stack) := by
  apply leads_cons (w := { v with sub := 7 })
  · apply inside_round at_ string
    simp [feedString, sub]
  apply leads_cons (w := { v with sub := 8 })
  · apply inside_round (v := { v with sub := 7 }) at_ string
    simp [feedString]
  exact leads_quad (v := { v with sub := 8 }) at_ string rfl (Or.inr rfl) (takes_second half)

theorem known_escape_short {e b : UInt8} (known : unescape e = some b) : shortEscape e = true := by
  unfold unescape at known
  unfold shortEscape
  split_ifs at known <;> simp [*]

theorem leads_piece {v : Jsonv} {st : St} {stack : List Lid} (inside : v.Inside st stack)
    (string : st = .key ∨ st = .string) (piece : Piece) :
    Leads v piece.text (Jsonv.Inside st stack) := by
  cases piece with
  | raw c plain =>
      apply leads_cons (w := v)
      · apply inside_round inside.1 string
        simp [feedString, inside.2, plain]
      · exact leads_nil inside
  | short e b known =>
      apply leads_cons (inside_backslash inside string)
      apply leads_cons (w := { v with sub := 0 })
      · apply inside_round (v := { v with sub := 1 }) inside.1 string
        simp [feedString, known_escape_short known]
      · exact leads_nil ⟨inside.1, rfl⟩
  | code quad single =>
      have read := leads_code inside string single.1 single.2.2
      rw [single.2.1] at read
      exact read
  | pair high low halves =>
      have notLow : isLow high.cp = false := by
        have half := halves.1
        simp only [isHigh, Bool.and_eq_true, decide_eq_true_eq] at half
        simp only [isLow, Bool.and_eq_false_iff, decide_eq_false_iff_not]
        omega
      have nonzero : high.cp ≠ 0 := by
        intro zero_
        have half := halves.1
        rw [zero_] at half
        exact absurd half (by decide)
      apply leads_append (leads_code inside string nonzero notLow)
      rintro w ⟨at_, sub⟩
      rw [halves.1] at sub
      exact leads_low at_ sub string halves.2

theorem leads_chars {v : Jsonv} {st : St} {stack : List Lid} (inside : v.Inside st stack)
    (string : st = .key ∨ st = .string) (chars : Chars) :
    Leads v chars.text (Jsonv.Inside st stack) := by
  induction chars generalizing v with
  | nil => exact leads_nil inside
  | cons piece chars induction =>
      apply leads_append (leads_piece inside string piece)
      intro w middle
      exact induction middle

/-- The first byte of a value, wherever one may begin. -/
theorem awaits_round {v w : Jsonv} {stack : List Lid} {c : UInt8} (awaits : v.Awaits stack)
    (other : c ≠ rbracket) (fed : feedValue v c = some w) : feedRound v c = some w := by
  apply feed_round_read
  rcases awaits.1 with st | st <;> simp [feedByte, st, fed, other]

/-- The quote that opens a string. -/
theorem leads_quote {v : Jsonv} {stack : List Lid} (awaits : v.Awaits stack) :
    Leads v [quote] (Jsonv.Inside .string stack) := by
  apply leads_cons (w := { v with st := .string, sub := 0 })
  · apply awaits_round awaits (by decide)
    simp [feedValue, show isWs quote = false by decide, show quote ≠ lbrace by decide,
      show quote ≠ lbracket by decide]
  · exact leads_nil ⟨⟨rfl, awaits.2⟩, rfl⟩

theorem leads_string {v : Jsonv} {stack : List Lid} (awaits : v.Awaits stack) (chars : Chars) :
    Leads v (Scalar.string chars).text (Jsonv.Ended stack) := by
  change Leads v ([quote] ++ (chars.text ++ [quote])) _
  apply leads_append (leads_quote awaits)
  intro u inside
  apply leads_append (leads_chars inside (Or.inr rfl) chars)
  rintro w ⟨at_, sub⟩
  apply leads_cons (w := valueDone w)
  · apply inside_round at_ (Or.inr rfl)
    simp [feedString, sub, at_.1]
  · exact leads_nil (value_done_ended at_.2.1 at_.2.2)

/-- The letters of a literal after the first. -/
theorem leads_letters {v : Jsonv} {stack : List Lid} {which : Nat} {front rest : Bytes}
    (at_ : v.At .lit stack) (same : v.lit = which) (word : LITS which = front ++ rest)
    (place : v.sub = front.length) (more : rest ≠ []) : Leads v rest (Jsonv.Ended stack) := by
  induction rest generalizing v front with
  | nil => exact absurd rfl more
  | cons c rest induction =>
      have next : (LITS v.lit)[v.sub]? = some c := by simp [same, word, place]
      have size : (LITS v.lit).length = front.length + 1 + rest.length := by
        simp [same, word]
        omega
      cases rest with
      | nil =>
          apply leads_cons (w := valueDone { v with sub := v.sub + 1 })
          · apply feed_round_read
            simp only [List.length_nil, Nat.add_zero, ← place] at size
            simp only [feedByte, at_.1, feedLiteral, next, size, if_true, Option.map_some]
          · exact leads_nil (value_done_ended (v := { v with sub := v.sub + 1 }) at_.2.1 at_.2.2)
      | cons d rest =>
          apply leads_cons (w := { v with sub := v.sub + 1 })
          · apply feed_round_read
            simp only [List.length_cons] at size
            have unfinished : (LITS v.lit).length ≠ v.sub + 1 := by omega
            simp [feedByte, at_.1, feedLiteral, next, unfinished]
          · exact @induction { v with sub := v.sub + 1 } (front ++ [c]) at_ same (by simp [word])
              (by simp [place]) (by simp)

theorem leads_literal {v : Jsonv} {stack : List Lid} (awaits : v.Awaits stack) (name : Literal) :
    Leads v name.text (Jsonv.Ended stack) := by
  have letters : ∀ (which : Nat) (first : UInt8) (rest : Bytes),
      LITS which = [first] ++ rest → rest ≠ [] →
        Leads { v with st := .lit, lit := which, sub := 1 } rest (Jsonv.Ended stack) := by
    intro which first rest word more
    exact @leads_letters { v with st := .lit, lit := which, sub := 1 } stack which [first] rest
      ⟨rfl, awaits.2⟩ rfl word rfl more
  cases name with
  | true =>
      apply leads_cons (w := { v with st := .lit, lit := 0, sub := 1 })
      · exact awaits_round awaits (by decide) rfl
      · exact letters 0 letterT _ rfl (by decide)
  | false =>
      apply leads_cons (w := { v with st := .lit, lit := 1, sub := 1 })
      · exact awaits_round awaits (by decide) rfl
      · exact letters 1 letterF _ rfl (by decide)
  | null =>
      apply leads_cons (w := { v with st := .lit, lit := 2, sub := 1 })
      · exact awaits_round awaits (by decide) rfl
      · exact letters 2 letterN _ rfl (by decide)

/-- Digits leave the machine where it is, once it is inside a run of them. -/
theorem leads_digits {v : Jsonv} (runs : v.st = .numInt ∨ v.st = .numFrac ∨ v.st = .numExp)
    (ds : Bytes) (digits : ∀ c ∈ ds, isDigit c = true) : jsonvFeed v ds = some v := by
  induction ds with
  | nil => rfl
  | cons c ds induction =>
      have digit := digits c (by simp)
      have round : feedRound v c = some v := by
        apply feed_round_read
        rcases runs with st | st | st <;> simp [feedByte, st, digit]
      rw [jsonv_feed_cons, round]
      exact induction fun b member => digits b (by simp [member])

/-- The digit that begins a run of them, and the run. -/
theorem leads_run {v : Jsonv} {st : St} (runs : st = .numInt ∨ st = .numFrac ∨ st = .numExp)
    {ds : Bytes} (digits : Digits ds)
    (begins : ∀ c, isDigit c = true → ds.head? = some c →
      feedRound v c = some { v with st := st }) :
    Leads v ds fun w => w = { v with st := st } := by
  cases ds with
  | nil => exact absurd rfl digits.1
  | cons c ds =>
      apply leads_cons (begins c (digits.2 c (by simp)) rfl)
      exact ⟨_, leads_digits (v := { v with st := st }) runs ds
        (fun b member => digits.2 b (by simp [member])), rfl⟩

/-- The machine stops at a numeral that is whole so far. -/
def Jsonv.WholeAt (stack : List Lid) (places : List St) (v : Jsonv) : Prop :=
  v.st ∈ places ∧ v.stack = stack ∧ v.done = false

theorem digit_not_zero {c : UInt8} (digit : isDigit c = true) (other : c ≠ zero) :
    one ≤ c ∧ c ≤ 0x39 := by
  simp only [isDigit, Bool.and_eq_true, decide_eq_true_eq] at digit
  have away : c.toNat ≠ 48 := fun same => other (UInt8.toNat_inj.mp same)
  have low : 48 ≤ c.toNat := UInt8.le_iff_toNat_le.mp digit.1
  refine ⟨UInt8.le_iff_toNat_le.mpr ?_, digit.2⟩
  show 49 ≤ c.toNat
  omega

/-- The digits in front of the point, with a state that may begin them. -/
theorem leads_whole {v : Jsonv} {stack : List Lid} (same : v.stack = stack ∧ v.done = false)
    {ds : Bytes} (whole : Whole ds)
    (nought : feedRound v zero = some { v with st := .numZero })
    (digit : ∀ c, one ≤ c ∧ c ≤ 0x39 → feedRound v c = some { v with st := .numInt }) :
    Leads v ds (Jsonv.WholeAt stack [.numZero, .numInt]) := by
  rcases whole with rfl | ⟨digits, proper⟩
  · exact leads_cons nought (leads_nil ⟨by simp, same⟩)
  · have run : Leads v ds fun w => w = { v with st := .numInt } := by
      apply leads_run (Or.inl rfl) digits
      intro c isDigit_ first
      apply digit c
      apply digit_not_zero isDigit_
      intro zero_
      rw [zero_] at first
      exact proper first
    rcases run with ⟨w, fed, rfl⟩
    exact ⟨_, fed, by simp, same⟩

theorem leads_fraction {v : Jsonv} {stack : List Lid} (at_ : v.WholeAt stack [.numZero, .numInt])
    {text : Bytes} (fraction : Fraction text) :
    Leads v text (Jsonv.WholeAt stack [.numZero, .numInt, .numFrac]) := by
  rcases at_ with ⟨place, same⟩
  simp only [List.mem_cons, List.not_mem_nil, or_false] at place
  rcases fraction with rfl | ⟨ds, digits, rfl⟩
  · apply leads_nil
    refine ⟨?_, same⟩
    rcases place with st | st <;> simp [st]
  · apply leads_cons (w := { v with st := .numFrac0 })
    · apply feed_round_read
      rcases place with st | st <;> simp [feedByte, st, show isDigit dot = false by decide]
    have run : Leads { v with st := .numFrac0 } ds fun w => w = { v with st := .numFrac } := by
      apply leads_run (v := { v with st := .numFrac0 }) (Or.inr (Or.inl rfl)) digits
      intro c digit _
      apply feed_round_read
      simp [feedByte, digit]
    rcases run with ⟨w, fed, rfl⟩
    exact ⟨_, fed, by simp, same⟩

theorem leads_exponent {v : Jsonv} {stack : List Lid}
    (at_ : v.WholeAt stack [.numZero, .numInt, .numFrac]) {text : Bytes}
    (exponent : Exponent text) : Leads v text (Jsonv.Whole stack) := by
  rcases at_ with ⟨place, same⟩
  simp only [List.mem_cons, List.not_mem_nil, or_false] at place
  rcases exponent with rfl | ⟨e, sign, ds, marker, signed, digits, rfl⟩
  · apply leads_nil
    refine ⟨same.1, same.2, ?_⟩
    rcases place with st | st | st <;> simp [st]
  · have notDigit : isDigit e = false ∧ e ≠ dot := by
      rcases marker with rfl | rfl <;> decide
    apply leads_cons (w := { v with st := .numExp0 })
    · apply feed_round_read
      have isMarker : e = letterE ∨ e = capitalE := marker
      rcases place with st | st | st <;> simp [feedByte, st, notDigit, isMarker]
    have run : ∀ place : St, place = .numExp0 ∨ place = .numExp1 →
        Leads { v with st := place } ds (Jsonv.Whole stack) := by
      intro place begins
      have read : Leads { v with st := place } ds fun w => w = { v with st := .numExp } := by
        apply leads_run (v := { v with st := place }) (Or.inr (Or.inr rfl)) digits
        intro c digit _
        have unsigned : c ≠ plus ∧ c ≠ minus := by
          refine ⟨?_, ?_⟩ <;> (rintro rfl; exact absurd digit (by decide))
        apply feed_round_read
        rcases begins with rfl | rfl <;> simp [feedByte, digit, unsigned]
      rcases read with ⟨w, fed, rfl⟩
      exact ⟨_, fed, same.1, same.2, by simp⟩
    rcases signed with rfl | rfl | rfl
    · exact run .numExp0 (Or.inl rfl)
    all_goals
      apply leads_cons (w := { v with st := .numExp1 }) (feed_round_read rfl)
      exact run .numExp1 (Or.inr rfl)

theorem leads_numeral {v : Jsonv} {stack : List Lid} (awaits : v.Awaits stack)
    (numeral : Numeral) : Leads v numeral.text (Jsonv.Whole stack) := by
  have unsigned : ∀ u : Jsonv, u.stack = stack ∧ u.done = false →
      feedRound u zero = some { u with st := .numZero } →
      (∀ c, one ≤ c ∧ c ≤ 0x39 → feedRound u c = some { u with st := .numInt }) →
        Leads u (numeral.whole ++ (numeral.fraction ++ numeral.exponent)) (Jsonv.Whole stack) := by
    intro u same nought digit
    apply leads_append (leads_whole same numeral.wholly nought digit)
    intro w whole
    apply leads_append (leads_fraction whole numeral.fractional)
    intro w fraction
    exact leads_exponent fraction numeral.exponential
  unfold Numeral.text
  rcases numeral.signed with bare | minus_
  · rw [bare, List.nil_append]
    apply unsigned v awaits.2
    · exact awaits_round awaits (by decide) rfl
    · intro c range
      have facts := digit_from_one range.1 range.2
      have solid : isWs c = false ∧ c ≠ lbrace ∧ c ≠ lbracket ∧ c ≠ quote ∧ c ≠ minus ∧
          c ≠ rbracket := by
        refine ⟨?_, ?_, ?_, ?_, ?_, ?_⟩
        · by_contra ws
          rw [Bool.not_eq_false] at ws
          simp only [isWs, Bool.or_eq_true, beq_iff_eq] at ws
          rcases ws with ((rfl | rfl) | rfl) | rfl <;> exact absurd facts.1 (by decide)
        all_goals
          rintro rfl
          exact absurd facts.1 (by decide)
      apply awaits_round awaits solid.2.2.2.2.2
      simp [feedValue, solid, facts.2, range]
  · rw [minus_]
    apply leads_cons (w := { v with st := .numMinus })
    · exact awaits_round awaits (by decide) rfl
    apply unsigned { v with st := .numMinus } awaits.2
    · exact feed_round_read rfl
    · intro c range
      apply feed_round_read
      simp [feedByte, (digit_from_one range.1 range.2).2, range]

/-- A scalar is read to its end. -/
theorem leads_scalar {v : Jsonv} {stack : List Lid} (awaits : v.Awaits stack) (scalar : Scalar) :
    Leads v scalar.text (Jsonv.Closed (Doc.leaf scalar).isNumber stack) := by
  cases scalar with
  | literal name =>
      rcases leads_literal awaits name with ⟨w, fed, ended⟩
      exact ⟨w, fed, Or.inl ended⟩
  | number numeral =>
      rcases leads_numeral awaits numeral with ⟨w, fed, whole⟩
      exact ⟨w, fed, Or.inr ⟨rfl, whole⟩⟩
  | string chars =>
      rcases leads_string awaits chars with ⟨w, fed, ended⟩
      exact ⟨w, fed, Or.inl ended⟩

end GridcoreRunner.Json
