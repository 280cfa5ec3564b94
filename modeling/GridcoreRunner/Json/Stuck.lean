import GridcoreRunner.Json.Build
import GridcoreRunner.Json.ModeLanguage

/-!
# Texts at which the machine gets stuck

A text is that of no value when the machine refuses one of its bytes although there is room in
its stack. So it does with number bytes that spell no numeral, and with a name between quotes
unless the name is the inside of a string or leaves the string: by a quote, behind which a colon
follows, or by a last backslash, which takes the closing quote in.
-/

namespace GridcoreRunner.Json

set_option autoImplicit false

/-- The machine refuses a byte of the text, and not for want of room. -/
def Stuck (v : Jsonv) (s : Bytes) : Prop :=
  ∃ (front : Bytes) (c : UInt8) (back : Bytes) (u : Jsonv), s = front ++ c :: back ∧
    jsonvFeed v front = some u ∧ u.stack.length < stackSize ∧ feedRound u c = none

theorem stuck_here {v : Jsonv} {c : UInt8} (room : v.stack.length < stackSize)
    (refused : feedRound v c = none) (s : Bytes) : Stuck v (c :: s) :=
  ⟨[], c, s, v, rfl, rfl, room, refused⟩

theorem stuck_after {v : Jsonv} {s t : Bytes} {middle : Jsonv → Prop} (first : Leads v s middle)
    (second : ∀ w, middle w → Stuck w t) : Stuck v (s ++ t) := by
  obtain ⟨w, fed, reached⟩ := first
  obtain ⟨front, c, back, u, rfl, later, room, refused⟩ := second w reached
  refine ⟨s ++ front, c, back, u, by rw [List.append_assoc], ?_, room, refused⟩
  rw [jsonv_feed_append, fed]
  exact later

theorem stuck_cons {v w : Jsonv} {c : UInt8} {s : Bytes} (round : feedRound v c = some w)
    (later : Stuck w s) : Stuck v (c :: s) :=
  stuck_after (s := [c]) (leads_cons round (leads_nil rfl)) fun _ same => same ▸ later

theorem refused_feed {v u : Jsonv} {front : Bytes} {c : UInt8} (fed : jsonvFeed v front = some u)
    (refused : feedRound u c = none) (back : Bytes) : jsonvFeed v (front ++ c :: back) = none := by
  rw [jsonv_feed_append, fed, Option.bind_some, jsonv_feed_cons, refused]
  rfl

/-- The machine refuses one byte of a text at most. -/
theorem refusal_unique {v u u' : Jsonv} {front back front' back' : Bytes} {c c' : UInt8}
    (same : front ++ c :: back = front' ++ c' :: back') (fed : jsonvFeed v front = some u)
    (refused : feedRound u c = none) (fed' : jsonvFeed v front' = some u')
    (refused' : feedRound u' c' = none) : u' = u := by
  rcases List.append_eq_append_iff.mp same with ⟨more, late, rest⟩ | ⟨more, late, rest⟩
  · cases more with
    | nil =>
        rw [late, List.append_nil, fed] at fed'
        exact (Option.some.inj fed').symm
    | cons d more =>
        rw [late, (List.cons.inj rest).1.symm, refused_feed fed refused] at fed'
        cases fed'
  · cases more with
    | nil =>
        rw [late, List.append_nil, fed'] at fed
        exact Option.some.inj fed
    | cons d more =>
        rw [late, (List.cons.inj rest).1.symm, refused_feed fed' refused'] at fed
        cases fed

/-- The text of a value is read, or fails for want of room. -/
theorem doc_not_stuck {v : Jsonv} {stack : List Lid} (awaits : v.Awaits stack)
    (bound : stack.length ≤ stackSize) (doc : Doc) : ¬Stuck v doc.text := by
  rintro ⟨front, c, back, u, text, fed, room, refused⟩
  by_cases fits : stack.length + doc.nesting ≤ stackSize
  · obtain ⟨w, read, _⟩ := leads_doc doc awaits fits
    rw [text, refused_feed fed refused] at read
    cases read
  · obtain ⟨front', lid, back', u', text', fed', full, refused'⟩ :=
      doc_overflows doc awaits bound (by omega)
    have same := refusal_unique (text.symm.trans text') fed refused fed' refused'
    rw [same] at full
    omega

mutual

theorem nesting_le_depth : ∀ doc : Doc, doc.nesting ≤ doc.depth
  | .leaf _ => Nat.zero_le _
  | .empty _ _ => Nat.le_refl _
  | .full _ early _ last _ => by
      have front := body_nesting_le_depth early
      have back := nesting_le_depth last
      rw [Doc.nesting, Doc.depth]
      omega

theorem body_nesting_le_depth : ∀ {lid : Lid} (body : Body lid), body.nesting ≤ body.depth
  | _, .none _ => Nat.zero_le _
  | _, .snoc front _ doc _ => by
      have early := body_nesting_le_depth front
      have own := nesting_le_depth doc
      rw [Body.nesting, Body.depth]
      omega

end

/-! ## Between entries -/

/-- The entries in front have been read: there are none, or a value has just ended. -/
def Jsonv.Between (lid : Lid) (stack : List Lid) (first : Bool) (v : Jsonv) : Prop :=
  if first then v.Entry lid stack else ∃ number, v.Closed number (lid :: stack)

theorem leads_separator {v : Jsonv} {lid : Lid} {stack : List Lid} {first : Bool}
    (between : v.Between lid stack first) :
    Leads v (if first then [] else [comma]) (Jsonv.Entry lid stack) := by
  cases first with
  | true => exact leads_nil between
  | false =>
      obtain ⟨number, closed⟩ := between
      exact closed_trail closed Blank.none (Or.inr (Or.inl rfl)) fun _ at_ => leads_comma at_

/-- Entries that fit in the stack are read. -/
theorem leads_entries {lid : Lid} {stack : List Lid} (room : Nat)
    (fits : stack.length + 1 + room ≤ stackSize) : ∀ (entries : List (Label lid × Doc))
    (first : Bool) {v : Jsonv}, v.Between lid stack first →
    (∀ entry ∈ entries, entry.2.depth ≤ room) →
    Leads v (entriesText first entries) (Jsonv.Between lid stack (first && entries.isEmpty))
  | [], first, v, between, _ => by
      rw [List.isEmpty_nil, Bool.and_true]
      exact leads_nil between
  | (label, doc) :: entries, first, v, between, deep => by
      have shallow := (nesting_le_depth doc).trans (deep _ List.mem_cons_self)
      rw [List.isEmpty_cons, Bool.and_false]
      apply leads_append (leads_separator between)
      intro w entry
      apply leads_append (leads_label entry label)
      intro w inner
      apply leads_append (leads_doc doc inner (by rw [List.length_cons]; omega))
      intro w closed
      exact leads_entries room fits entries false ⟨_, closed⟩ fun other inside =>
        deep other (List.mem_cons_of_mem _ inside)

/-! ## Number bytes -/

def NumberByte (c : UInt8) : Prop :=
  isDigit c = true ∨ c = plus ∨ c = minus ∨ c = dot ∨ c = letterE ∨ c = capitalE

/-- Behind a value no number byte is read. -/
theorem number_byte_apart {v : Jsonv} {c : UInt8} (numeric : NumberByte c)
    (settled : v.Settled) : feedByte v c = none := by
  have other : isWs c = false ∧ c ≠ comma ∧ c ≠ rbrace ∧ c ≠ rbracket := by
    rcases numeric with digit | rfl | rfl | rfl | rfl | rfl
    · simp only [isDigit] at digit
      simp only [isWs]
      grind
    all_goals decide
  rcases settled with st | st <;> simp [feedByte, st, other]

/-- Inside a numeral, a byte that follows a value refuses what is no numeral yet. -/
theorem numeral_ends {v : Jsonv} {text : Bytes} (shows : NumeralText v.st text) {c : UInt8}
    (stop : Stop c) : feedByte v c = none ∨ ∃ numeral : Numeral, numeral.text = text := by
  obtain ⟨digit, point, small, big⟩ := stop_ends_number stop
  have unsigned : c ≠ plus ∧ c ≠ minus := by
    refine ⟨?_, ?_⟩ <;> (rintro rfl; rcases stop with ws | same | same | same <;> cases ‹_›)
  have low : ¬(one ≤ c ∧ c ≤ 0x39) := by
    rintro ⟨least, most⟩
    rw [(digit_from_one least most).1] at digit
    cases digit
  have nought : c ≠ zero := by
    rintro rfl
    cases digit
  obtain ⟨numeral, shown, rfl⟩ := shows
  cases numeral with
  | whole n _ => exact Or.inr ⟨n, rfl⟩
  | fraction n _ => exact Or.inr ⟨n, rfl⟩
  | power n _ => exact Or.inr ⟨n, rfl⟩
  | minus =>
      have st : v.st = .numMinus := shown
      exact Or.inl (by simp [feedByte, st, nought, low])
  | point n _ =>
      have st : v.st = .numFrac0 := shown
      exact Or.inl (by simp [feedByte, st, digit])
  | marker n e _ =>
      have st : v.st = .numExp0 := shown
      exact Or.inl (by simp [feedByte, st, digit, unsigned])
  | signed n e s _ =>
      have st : v.st = .numExp1 := shown
      exact Or.inl (by simp [feedByte, st, digit])

theorem round_refused {v : Jsonv} {c : UInt8} (refused : feedByte v c = none) :
    feedRound v c = none := by
  simp [feedRound, refused]

/-- The rest of a run of number bytes. -/
theorem numeral_stuck {run : Bytes} (numeric : ∀ b ∈ run, NumberByte b) {c : UInt8} (stop : Stop c)
    (s : Bytes) {v : Jsonv} {text : Bytes} (shows : NumeralText v.st text)
    (room : v.stack.length < stackSize) :
    Stuck v (run ++ c :: s) ∨ ∃ numeral : Numeral, numeral.text = text ++ run := by
  induction run generalizing v text with
  | nil =>
      rw [List.append_nil]
      rcases numeral_ends shows stop with refused | numeral
      · exact Or.inl (stuck_here room (round_refused refused) s)
      · exact Or.inr numeral
  | cons b run induction =>
      have first := numeric b List.mem_cons_self
      cases fed : feedByte v b with
      | none => exact Or.inl (stuck_here room (round_refused fed) _)
      | some next =>
          obtain ⟨v', again⟩ := next
          obtain ⟨numeral, shown, rfl⟩ := shows
          rcases feed_numeral shown fed with ⟨rfl, longer, stack, _⟩ | ⟨rfl, rfl, _⟩
          · have others : ∀ d ∈ run, NumberByte d := fun d inside =>
              numeric d (List.mem_cons_of_mem _ inside)
            have later := induction others longer (by rw [stack]; exact room)
            rw [List.append_assoc] at later
            exact later.imp_left fun stuck => stuck_cons (feed_round_read fed) stuck
          · have refused := number_byte_apart first (value_done_settled v)
            exact Or.inl (stuck_here room (by simp [feedRound, fed, refused]) _)

/-- Number bytes in the place of a value are a numeral, or the machine gets stuck. -/
theorem run_stuck {v : Jsonv} {stack : List Lid} (awaits : v.Awaits stack)
    (room : stack.length < stackSize) {run : Bytes} (some_ : run ≠ [])
    (numeric : ∀ b ∈ run, NumberByte b) {c : UInt8} (stop : Stop c) (s : Bytes) :
    Stuck v (run ++ c :: s) ∨ ∃ numeral : Numeral, numeral.text = run := by
  obtain ⟨b, run, rfl⟩ := List.exists_cons_of_ne_nil some_
  have space : v.stack.length < stackSize := by
    rw [awaits.2.1]
    exact room
  have begins : ∀ st : St, feedValue v b = some { v with st := st } → NumeralText st [b] →
      b ≠ rbracket →
      Stuck v (b :: run ++ c :: s) ∨ ∃ numeral : Numeral, numeral.text = b :: run := by
    intro st fed shows other
    have later := numeral_stuck (fun d inside => numeric d (List.mem_cons_of_mem _ inside)) stop s
      (v := { v with st := st }) shows space
    exact later.imp_left fun stuck => stuck_cons (awaits_round awaits other fed) stuck
  have fails : feedValue v b = none → b ≠ rbracket →
      Stuck v (b :: run ++ c :: s) ∨ ∃ numeral : Numeral, numeral.text = b :: run := by
    intro refused other
    apply Or.inl (stuck_here space (round_refused _) _)
    rcases awaits.1 with st | st <;> simp [feedByte, st, refused, other]
  rcases numeric b List.mem_cons_self with digit | rfl | rfl | rfl | rfl | rfl
  · have other : b ≠ rbracket ∧ isWs b = false ∧ b ≠ lbrace ∧ b ≠ lbracket ∧ b ≠ quote ∧
        b ≠ minus := by
      simp only [isDigit] at digit
      simp only [isWs]
      grind
    by_cases nought : b = zero
    · subst nought
      exact begins .numZero rfl (whole_zero_text (Or.inl rfl)) other.1
    · have range := digit_not_zero digit nought
      refine begins .numInt ?_ (first_digit_text (Or.inl rfl) range.1 range.2) other.1
      simp [feedValue, other, nought, range]
  · exact fails rfl (by decide)
  · exact begins .numMinus rfl ⟨.minus, rfl, rfl⟩ (by decide)
  · exact fails rfl (by decide)
  · exact fails rfl (by decide)
  · exact fails rfl (by decide)

/-! ## Names -/

/-- What can stand between the quotes of a string. -/
def Inner (s : Bytes) : Prop := ∃ chars : Chars, chars.text = s

/-- The name ends its string and goes on with a colon, or takes the closing quote in. -/
def LeavesString (name : Bytes) : Prop :=
  ∃ chars : Chars, name = chars.text ++ [backslash] ∨
    ∃ (blank : Blank) (back : Bytes), name = chars.text ++ quote :: (blank.val ++ colon :: back)

/-- Behind a name a colon comes, or the machine gets stuck. -/
theorem colon_stuck {v : Jsonv} (st : v.st = .colon) (room : v.stack.length < stackSize)
    (rest s : Bytes) : Stuck v (rest ++ quote :: s) ∨
      ∃ (blank : Blank) (back : Bytes), rest = blank.val ++ colon :: back := by
  induction rest with
  | nil =>
      have refused : feedByte v quote = none := by
        simp [feedByte, st, show isWs quote = false by decide, show quote ≠ colon by decide]
      exact Or.inl (stuck_here room (round_refused refused) s)
  | cons b rest induction =>
      by_cases ws : isWs b = true
      · have skips : v.Skips := by simp [Jsonv.Skips, st]
        rcases induction with stuck | ⟨blank, back, rfl⟩
        · exact Or.inl (stuck_cons (skips_round skips ws) stuck)
        · refine Or.inr ⟨⟨b :: blank.val, ?_⟩, back, rfl⟩
          exact List.forall_mem_cons.mpr ⟨ws, blank.property⟩
      · by_cases found : b = colon
        · exact Or.inr ⟨Blank.none, rest, by rw [found]; rfl⟩
        · exact Or.inl (stuck_here room (round_refused (by simp [feedByte, st, ws, found])) _)

theorem key_refused {v : Jsonv} {c : UInt8} (st : v.st = .key) (refused : feedString v c = none) :
    feedRound v c = none :=
  round_refused (by simp [feedByte, st, refused])

/-- An escape that a quote cuts is refused, but for a lone backslash. -/
theorem escape_cut {v : Jsonv} {escape : OpenEscape} (shows : escape.Shows v.sub v.esc) :
    escape = .none ∨ escape = .slash ∨ feedString v quote = none := by
  have digits : hexDigit quote = none := rfl
  cases escape with
  | none => exact Or.inl rfl
  | slash => exact Or.inr (Or.inl rfl)
  | code ds value reads short viable =>
      have place : v.sub = 2 + ds.length := shows.1
      have others : v.sub ≠ 1 ∧ v.sub ≠ 6 ∧ v.sub ≠ 7 ∧ 2 ≤ v.sub := by omega
      exact Or.inr (Or.inr (by simp [feedString, others, jsonEscapeHex, digits]))
  | high quad half =>
      have place : v.sub = 6 := shows
      exact Or.inr (Or.inr (by simp [feedString, place]; decide))
  | highSlash quad half =>
      have place : v.sub = 7 := shows
      exact Or.inr (Or.inr (by simp [feedString, place]; decide))
  | low quad half ds value reads short first viable =>
      have place : v.sub = 8 + ds.length := shows.1
      have others : v.sub ≠ 1 ∧ v.sub ≠ 6 ∧ v.sub ≠ 7 ∧ 2 ≤ v.sub := by omega
      exact Or.inr (Or.inr (by simp [feedString, others, jsonEscapeHex, digits]))

/-- The rest of a name, and the quote behind it. -/
theorem name_rest_stuck (begun : OpenChars) (rest s : Bytes) {v : Jsonv} (st : v.st = .key)
    (room : v.stack.length < stackSize) (shows : begun.escape.Shows v.sub v.esc) :
    Stuck v (rest ++ quote :: s) ∨ LeavesString (begun.text ++ rest) ∨
      Inner (begun.text ++ rest) := by
  induction rest generalizing v begun with
  | nil =>
      rw [List.append_nil]
      obtain ⟨chars, escape⟩ := begun
      rcases escape_cut shows with rfl | rfl | refused
      · exact Or.inr (Or.inr ⟨chars, (List.append_nil _).symm⟩)
      · exact Or.inr (Or.inl ⟨chars, Or.inl rfl⟩)
      · exact Or.inl (stuck_here room (key_refused st refused) s)
  | cons b rest induction =>
      cases fed : feedString v b with
      | none => exact Or.inl (stuck_here room (key_refused st fed) _)
      | some v' =>
          have round : feedRound v b = some v' := feed_round_read (by simp [feedByte, st, fed])
          rcases feed_string shows fed with
            ⟨whole, rfl, next⟩ | ⟨longer, shows', text, st', stack, _⟩
          · rw [if_pos st] at next
            have colon_ : v'.st = .colon := by rw [next]
            have space : v'.stack.length < stackSize := by
              rw [next]
              exact room
            rcases colon_stuck colon_ space rest s with stuck | ⟨blank, back, rfl⟩
            · exact Or.inl (stuck_cons round stuck)
            · refine Or.inr (Or.inl ⟨begun.chars, Or.inr ⟨blank, back, ?_⟩⟩)
              simp [OpenChars.text, whole, OpenEscape.text]
          · have later := induction longer (st'.trans st) (by rw [stack]; exact room) shows'
            rw [text, List.append_assoc] at later
            exact later.imp_left fun stuck => stuck_cons round stuck

/-- A name between quotes is the inside of a string or leaves the string, or the machine gets
stuck. -/
theorem name_stuck {v : Jsonv} {stack : List Lid} (entry : v.Entry .brace stack)
    (room : stack.length + 1 < stackSize) (name s : Bytes) :
    Stuck v (quote :: (name ++ quote :: s)) ∨ LeavesString name ∨ Inner name := by
  obtain ⟨same, running, place⟩ := entry
  have round : feedRound v quote = some { v with st := .key, sub := 0 } := by
    apply feed_round_read
    rcases place with st | st <;> simp [feedByte, st, show isWs quote = false by decide]
  have space : v.stack.length < stackSize := by
    rw [same]
    exact room
  have read := name_rest_stuck ⟨[], .none⟩ name s (v := { v with st := .key, sub := 0 }) rfl space
    rfl
  exact read.imp_left fun stuck => stuck_cons round stuck

end GridcoreRunner.Json
