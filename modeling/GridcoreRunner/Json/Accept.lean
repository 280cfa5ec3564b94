import GridcoreRunner.Json.EscapeText
import GridcoreRunner.Json.ReadBack
import Mathlib.Data.List.TakeWhile

/-!
# What the parser takes

The other half of the equivalence between `json_parse` and the grammar: wherever a function
of the parser succeeds, what it has read is spelled by the grammar, the value is the one the
spelling stands for, and the conditions on strings, numbers, names and depth hold.
-/

namespace GridcoreRunner.Json

set_option autoImplicit false

open GridcoreRunner.Utf8

/-! ## Strings -/

theorem unicode_escape_inv {s rest : Bytes} {cp : Nat} (read : unicodeEscape s = some (cp, rest)) :
    ∃ piece : Piece, backslash :: letterU :: s = piece.text ++ rest ∧ piece.decode = u8Emit cp ∧
      piece.Escape := by
  unfold unicodeEscape at read
  split at read
  next a b c d s =>
    obtain ⟨first, digits, read⟩ := Option.bind_eq_some_iff.mp read
    by_cases nul : first = 0
    · rw [if_pos nul] at read
      cases read
    rw [if_neg nul] at read
    let quad : Quad := ⟨a, b, c, d, first, digits⟩
    by_cases high : isHigh first = true
    · rw [if_pos high] at read
      split at read
      next _ back u a' b' c' d' s' _ =>
        by_cases escape : back = backslash ∧ u = letterU
        · rw [if_pos escape] at read
          obtain ⟨second, digits', read⟩ := Option.bind_eq_some_iff.mp read
          by_cases low : isLow second = true
          · rw [if_pos low, Option.some.injEq, Prod.mk.injEq] at read
            let other : Quad := ⟨a', b', c', d', second, digits'⟩
            refine ⟨.pair quad other ⟨high, low⟩, ?_, congrArg u8Emit read.1, trivial⟩
            rw [escape.1, escape.2, ← read.2]
            rfl
          · rw [if_neg low] at read
            cases read
        · rw [if_neg escape] at read
          cases read
      next => cases read
    · rw [if_neg high] at read
      by_cases low : isLow first = true
      · rw [if_pos low] at read
        cases read
      · rw [if_neg low] at read
        cases read
        exact ⟨.code quad ⟨nul, Bool.eq_false_iff.mpr high, Bool.eq_false_iff.mpr low⟩, rfl, rfl,
          trivial⟩
  next => cases read

theorem string_loop_inv {rounds : Nat} {s out t rest : Bytes}
    (read : stringLoop rounds s out = some (t, rest)) :
    ∃ chars : Chars, s = chars.text ++ quote :: rest ∧ t = out ++ chars.decode ∧
      chars.fine = true := by
  induction rounds generalizing s out with
  | zero => cases read
  | succ rounds induction =>
      rcases s with _ | ⟨ch, s⟩
      · cases read
      simp only [stringLoop] at read
      by_cases closing : ch = quote
      · rw [if_pos closing] at read
        cases read
        exact ⟨[], by rw [closing]; rfl, (List.append_nil _).symm, rfl⟩
      rw [if_neg closing] at read
      by_cases back : ch = backslash
      · rw [if_pos back] at read
        rcases s with _ | ⟨e, s⟩
        · cases read
        dsimp only at read
        by_cases unicode : e = letterU
        · rw [if_pos unicode] at read
          obtain ⟨⟨cp, after⟩, taken, read⟩ := Option.bind_eq_some_iff.mp read
          obtain ⟨chars, text, decode, fine⟩ := induction read
          dsimp only at text decode
          obtain ⟨piece, spelled, means, escape⟩ := unicode_escape_inv taken
          refine ⟨piece :: chars, ?_, ?_, ?_⟩
          · rw [back, unicode, spelled, text, chars_text_cons, List.append_assoc]
          · rw [decode, chars_decode_cons, means, List.append_assoc]
          · rw [chars_fine_escape escape]
            exact fine
        · rw [if_neg unicode] at read
          obtain ⟨b, known, read⟩ := Option.bind_eq_some_iff.mp read
          obtain ⟨chars, text, decode, fine⟩ := induction read
          refine ⟨.short e b known :: chars, ?_, ?_, ?_⟩
          · rw [back, text]
            rfl
          · rw [decode, chars_decode_cons, ← List.append_assoc]
            rfl
          · have escape : Piece.Escape (.short e b known) := trivial
            rw [chars_fine_escape escape]
            exact fine
      rw [if_neg back] at read
      by_cases control : ch < 0x20
      · rw [if_pos control] at read
        cases read
      rw [if_neg control] at read
      have plain : 0x20 ≤ ch ∧ ch ≠ quote ∧ ch ≠ backslash := ⟨by grind, closing, back⟩
      by_cases ascii : ch < 0x80
      · rw [if_pos ascii] at read
        obtain ⟨chars, text, decode, fine⟩ := induction read
        refine ⟨.raw ch plain :: chars, ?_, ?_, ?_⟩
        · rw [text]
          rfl
        · rw [decode, chars_decode_cons, ← List.append_assoc]
          rfl
        · have same : Chars.fine (.raw ch plain :: chars) = Chars.fine chars :=
            Utf8.well_formed_cons_ascii ascii
          rw [same]
          exact fine
      · rw [if_neg ascii] at read
        by_cases none' : utf8Seq (ch :: s) = 0
        · rw [if_pos none'] at read
          cases read
        rw [if_neg none'] at read
        obtain ⟨chars, text, decode, fine⟩ := induction read
        have whole := utf8_seq_take (Nat.pos_of_ne_zero none')
        have wide : ∀ c ∈ (ch :: s).take (utf8Seq (ch :: s)), 0x80 ≤ c := by
          rcases sequence_wide whole with ⟨c, small, same⟩ | all
          · have one := utf8_seq_wide (c := ch) (s := s) (by grind)
            have first := congrArg List.head? same
            rw [List.head?_take, if_neg none'] at first
            cases first
            exact absurd small ascii
          · exact all
        obtain ⟨front, frontText, frontDecode⟩ := wide_pieces wide
        refine ⟨front ++ chars, ?_, ?_, ?_⟩
        · rw [chars_text_append, frontText, List.append_assoc, ← text, List.take_append_drop]
        · rw [decode, chars_decode_append, frontDecode, List.append_assoc]
        · rw [Chars.fine, chars_text_append, frontText, well_formed_sequence whole]
          exact fine

/-- A string that was read is pieces between quotes. -/
theorem parse_string_inv {s t rest : Bytes} (read : parseString s = some (t, rest)) :
    ∃ chars : Chars, s = quote :: (chars.text ++ quote :: rest) ∧ t = chars.decode ∧
      chars.fine = true := by
  rcases s with _ | ⟨c, s⟩
  · cases read
  rw [parseString] at read
  by_cases opening : c = quote
  · rw [if_pos opening] at read
    obtain ⟨chars, text, decode, fine⟩ := string_loop_inv read
    exact ⟨chars, by rw [opening, text], by rw [decode, List.nil_append], fine⟩
  · rw [if_neg opening] at read
    cases read

/-! ## Numbers -/

theorem skip_digits_inv {s p : Bytes} (skipped : skipDigits s = some p) :
    ∃ ds, Digits ds ∧ s = ds ++ p := by
  rcases s with _ | ⟨c, s⟩
  · cases skipped
  rw [skipDigits] at skipped
  by_cases digit : isDigit c = true
  · rw [if_pos digit] at skipped
    cases skipped
    refine ⟨c :: s.takeWhile isDigit, ⟨List.cons_ne_nil _ _, ?_⟩, ?_⟩
    · intro d inside
      rcases List.mem_cons.mp inside with here | there
      · rw [here]
        exact digit
      · exact List.mem_takeWhile_imp there
    · rw [List.cons_append, List.takeWhile_append_dropWhile]
  · rw [if_neg digit] at skipped
    cases skipped

theorem skip_whole_inv {s p : Bytes} (skipped : skipWhole s = some p) :
    ∃ ds, Whole ds ∧ s = ds ++ p := by
  rcases s with _ | ⟨c, s⟩
  · cases skipped
  unfold skipWhole at skipped
  dsimp only at skipped
  by_cases leading : c = zero
  · rw [if_pos leading] at skipped
    rcases s with _ | ⟨d, s⟩
    · cases skipped
      exact ⟨[zero], Or.inl rfl, by rw [leading]; rfl⟩
    · dsimp only at skipped
      by_cases digit : isDigit d = true
      · rw [if_pos digit] at skipped
        cases skipped
      · rw [if_neg digit] at skipped
        cases skipped
        exact ⟨[zero], Or.inl rfl, by rw [leading]; rfl⟩
  · rw [if_neg leading] at skipped
    obtain ⟨ds, digits, split⟩ := skip_digits_inv skipped
    refine ⟨ds, Or.inr ⟨digits, ?_⟩, split⟩
    intro first
    rcases ds with _ | ⟨d, ds⟩
    · cases first
    · injection first with same
      injection split with head _
      exact leading (head.trans same)

theorem skip_fraction_inv {s p : Bytes} (skipped : skipFraction s = some p) :
    ∃ text, Fraction text ∧ s = text ++ p := by
  rcases s with _ | ⟨c, s⟩
  · cases skipped
    exact ⟨[], Or.inl rfl, rfl⟩
  rw [skipFraction] at skipped
  by_cases point : c = dot
  · rw [if_pos point] at skipped
    obtain ⟨ds, digits, split⟩ := skip_digits_inv skipped
    exact ⟨dot :: ds, Or.inr ⟨ds, digits, rfl⟩, by rw [point, split]; rfl⟩
  · rw [if_neg point] at skipped
    cases skipped
    exact ⟨[], Or.inl rfl, rfl⟩

theorem skip_exponent_inv {s p : Bytes} (skipped : skipExponent s = some p) :
    ∃ text, Exponent text ∧ s = text ++ p := by
  rcases s with _ | ⟨c, s⟩
  · cases skipped
    exact ⟨[], Or.inl rfl, rfl⟩
  rw [skipExponent] at skipped
  by_cases marker : c = letterE ∨ c = capitalE
  · rw [if_pos marker] at skipped
    obtain ⟨ds, digits, split⟩ := skip_digits_inv skipped
    have signed : ∃ sign, PowerSign sign ∧ s = sign ++ (ds ++ p) := by
      rcases s with _ | ⟨d, s⟩
      · exact ⟨[], Or.inl rfl, split⟩
      · rw [skipSign] at split
        by_cases sign : (d == plus || d == minus) = true
        · rw [if_pos sign] at split
          rw [Bool.or_eq_true, beq_iff_eq, beq_iff_eq] at sign
          rcases sign with same | same
          · exact ⟨[plus], Or.inr (Or.inl rfl), by rw [same, split]; rfl⟩
          · exact ⟨[minus], Or.inr (Or.inr rfl), by rw [same, split]; rfl⟩
        · rw [if_neg sign] at split
          exact ⟨[], Or.inl rfl, split⟩
    obtain ⟨sign, power, parts⟩ := signed
    refine ⟨c :: (sign ++ ds), Or.inr ⟨c, sign, ds, marker, power, digits, rfl⟩, ?_⟩
    rw [parts, List.cons_append, List.append_assoc]
  · rw [if_neg marker] at skipped
    cases skipped
    exact ⟨[], Or.inl rfl, rfl⟩

/-- A number that was read is a numeral in range. -/
theorem parse_number_inv {s rest : Bytes} {v : Jv} (read : parseNumber s = some (v, rest)) :
    ∃ numeral : Numeral, s = numeral.text ++ rest ∧ inRange numeral.text = true ∧
      v = .num (strtod numeral.text).1 := by
  rw [parseNumber] at read
  obtain ⟨p, whole, read⟩ := Option.bind_eq_some_iff.mp read
  obtain ⟨p', fraction, read⟩ := Option.bind_eq_some_iff.mp read
  obtain ⟨p'', exponent, read⟩ := Option.bind_eq_some_iff.mp read
  have signed : ∃ sign, (sign = [] ∨ sign = [minus]) ∧ s = sign ++ skipSign (· == minus) s := by
    rcases s with _ | ⟨c, s⟩
    · exact ⟨[], Or.inl rfl, rfl⟩
    · rw [skipSign]
      by_cases sign : (c == minus) = true
      · rw [if_pos sign]
        rw [beq_iff_eq] at sign
        exact ⟨[minus], Or.inr rfl, by rw [sign]; rfl⟩
      · rw [if_neg sign]
        exact ⟨[], Or.inl rfl, rfl⟩
  obtain ⟨sign, minusOr, split⟩ := signed
  obtain ⟨ds, wholly, wholeSplit⟩ := skip_whole_inv whole
  obtain ⟨frac, fractional, fractionSplit⟩ := skip_fraction_inv fraction
  obtain ⟨expo, exponential, exponentSplit⟩ := skip_exponent_inv exponent
  let numeral : Numeral := ⟨sign, ds, frac, expo, minusOr, wholly, fractional, exponential⟩
  have spelled : s = numeral.text ++ p'' := by
    rw [split, wholeSplit, fractionSplit, exponentSplit]
    simp [numeral, Numeral.text]
  have taken : s.take (s.length - p''.length) = numeral.text := by
    rw [spelled, List.length_append, Nat.add_sub_cancel, List.take_left]
  dsimp only at read
  rw [taken] at read
  by_cases fits : inRange numeral.text = true
  · rw [if_pos fits] at read
    cases read
    exact ⟨numeral, spelled, fits, rfl⟩
  · rw [if_neg fits] at read
    cases read

/-! ## Values -/

theorem skip_ws_split (s : Bytes) : ∃ w : Blank, s = w.val ++ skipWs s :=
  ⟨⟨s.takeWhile isWs, fun _ inside => List.mem_takeWhile_imp inside⟩,
    List.takeWhile_append_dropWhile.symm⟩

/-- What `parse_value` has read with `room` levels left. -/
def Spells (room : Nat) (s : Bytes) (v : Jv) (rest : Bytes) : Prop :=
  ∃ (lead : Blank) (doc : Doc), s = lead.val ++ (doc.text ++ rest) ∧ doc.fine room = true ∧
    v = doc.jv

/-- Entries that a comma follows, as far as the loop of `parse_container` has come. -/
theorem container_loop_inv {room : Nat}
    (value : ∀ s v rest, parseValue room s = some (v, rest) → Spells room s v rest) {lid : Lid}
    {rounds : Nat} {s rest : Bytes} {v : Jv} (body : Body lid) (fine : body.fine room = true)
    (read : containerLoop (parseValue room) lid rounds s body.keys body.items = some (v, rest)) :
    ∃ (early : Body lid) (label : Label lid) (last : Doc) (trail : Blank),
      body.text ++ s = early.text ++ (label.text ++ (last.text ++ (trail.val ++ lid.closer :: rest))) ∧
      early.fine room = true ∧ label.fine early.keys = true ∧ last.fine room = true ∧
      v = lid.jv (early.keys ++ label.keys) (early.items ++ [last.jv]) := by
  induction rounds generalizing s body with
  | zero => cases read
  | succ rounds induction =>
      rw [containerLoop] at read
      obtain ⟨⟨keys, s1⟩, named, read⟩ := Option.bind_eq_some_iff.mp read
      obtain ⟨⟨item, s2⟩, valued, read⟩ := Option.bind_eq_some_iff.mp read
      dsimp only at valued read
      obtain ⟨lead, doc, spelled, docFine, docJv⟩ := value s1 item s2 valued
      -- the label that stands in front of the value
      have labelled : ∃ label : Label lid, s = label.text ++ (doc.text ++ s2) ∧
          label.fine body.keys = true ∧ keys = body.keys ++ label.keys := by
        cases lid with
        | bracket =>
            simp only [parseLabel, Option.some.injEq, Prod.mk.injEq] at named
            refine ⟨.item lead, ?_, rfl, ?_⟩
            · rw [named.2, spelled]
              rfl
            · rw [← named.1]
              exact (List.append_nil _).symm
        | brace =>
            simp only [parseLabel, parseKey] at named
            obtain ⟨⟨key, s3⟩, keyed, named⟩ := Option.bind_eq_some_iff.mp named
            dsimp only at named
            obtain ⟨chars, text, decode, charsFine⟩ := parse_string_inv keyed
            obtain ⟨before, beforeSplit⟩ := skip_ws_split s
            obtain ⟨after, afterSplit⟩ := skip_ws_split s3
            by_cases seen : key ∈ body.keys
            · rw [if_pos seen] at named
              cases named
            · rw [if_neg seen] at named
              rcases rest' : skipWs s3 with _ | ⟨c, s4⟩
              · rw [rest'] at named
                cases named
              · rw [rest'] at named
                dsimp only at named
                by_cases colons : c = colon
                · rw [if_pos colons, Option.some.injEq, Prod.mk.injEq] at named
                  refine ⟨.member ⟨before, chars, after⟩ lead, ?_, ?_, ?_⟩
                  · rw [beforeSplit, text, afterSplit, rest', colons, named.2, spelled]
                    simp [Label.text, Name.text]
                  · simp only [Label.fine, charsFine, Bool.true_and, decide_eq_true_eq]
                    rw [← decode]
                    exact seen
                  · rw [← named.1, decode]
                    rfl
                · rw [if_neg colons] at named
                  cases named
      obtain ⟨label, text, labelFine, keysSame⟩ := labelled
      obtain ⟨trail, trailSplit⟩ := skip_ws_split s2
      rcases after : skipWs s2 with _ | ⟨c, s3⟩
      · rw [after] at read
        cases read
      · rw [after] at read trailSplit
        dsimp only at read
        by_cases more : c = comma
        · rw [if_pos more] at read
          have next := induction (s := s3) (.snoc body label doc trail) ?_ ?_
          · obtain ⟨early, label', last, trail', split, conditions⟩ := next
            refine ⟨early, label', last, trail', ?_, conditions⟩
            rw [← split, text, trailSplit, more]
            simp [Body.text]
          · simp [Body.fine, fine, labelFine, docFine]
          · rw [Body.keys, Body.items, ← keysSame, ← docJv]
            exact read
        · rw [if_neg more] at read
          by_cases closing : c = lid.closer
          · rw [if_pos closing] at read
            cases read
            refine ⟨body, label, doc, trail, ?_, fine, labelFine, docFine, ?_⟩
            · rw [text, trailSplit, closing]
            · rw [keysSame, docJv]
          · rw [if_neg closing] at read
            cases read

theorem parse_value_inv : ∀ (room : Nat) (s : Bytes) (v : Jv) (rest : Bytes),
    parseValue room s = some (v, rest) → Spells room s v rest := by
  intro room
  induction room with
  | zero =>
      intro s v rest read
      cases read
  | succ room induction =>
      intro s v rest read
      obtain ⟨lead, split⟩ := skip_ws_split s
      rw [parseValue] at read
      rcases after : skipWs s with _ | ⟨ch, t⟩
      · rw [after] at read
        cases read
      rw [after] at read split
      dsimp only at read
      -- a leaf that stands here
      have leaf : ∀ scalar : Scalar, ch :: t = scalar.text ++ rest → scalar.fine = true →
          v = scalar.jv → Spells (room + 1) s v rest := by
        intro scalar text fine value
        refine ⟨lead, .leaf scalar, ?_, ?_, value⟩
        · rw [split, text]
          rfl
        · simp [Doc.fine, fine]
      -- a container that opens here
      have container : ∀ lid : Lid, ch = lid.opener →
          parseContainer (parseValue room) lid t = some (v, rest) → Spells (room + 1) s v rest := by
        intro lid opener opened
        obtain ⟨blank, inside⟩ := skip_ws_split t
        rw [parseContainer] at opened
        by_cases empty : (skipWs t).head? = some lid.closer
        · rw [if_pos empty] at opened
          cases opened
          have first : skipWs t = lid.closer :: (skipWs t).tail :=
            List.eq_cons_of_mem_head? empty
          refine ⟨lead, .empty lid blank, ?_, by simp [Doc.fine], rfl⟩
          rw [split, opener]
          have text : lid.opener :: t =
              Doc.text (.empty lid blank) ++ (skipWs t).tail := by
            conv_lhs => rw [inside, first]
            simp [Doc.text]
          rw [text]
        · rw [if_neg empty, container_loop_skip] at opened
          obtain ⟨early, label, last, trail, text, earlyFine, labelFine, lastFine, value⟩ :=
            container_loop_inv induction (.none lid) rfl opened
          have body : t = early.text ++
              (label.text ++ (last.text ++ (trail.val ++ lid.closer :: rest))) := text
          refine ⟨lead, .full lid early label last trail, ?_, ?_, value⟩
          · rw [split, opener, body]
            simp [Doc.text]
          · simp [Doc.fine, earlyFine, labelFine, lastFine]
      by_cases brace : ch = lbrace
      · rw [if_pos brace] at read
        exact container .brace brace read
      rw [if_neg brace] at read
      by_cases bracket : ch = lbracket
      · rw [if_pos bracket] at read
        exact container .bracket bracket read
      rw [if_neg bracket] at read
      by_cases string : ch = quote
      · rw [if_pos string] at read
        obtain ⟨⟨text, after'⟩, taken, same⟩ := Option.map_eq_some_iff.mp read
        rw [Prod.mk.injEq] at same
        dsimp only at same
        obtain ⟨chars, spelled, decode, fine⟩ := parse_string_inv taken
        apply leaf (.string chars)
        · rw [spelled, same.2]
          simp [Scalar.text]
        · exact fine
        · rw [← same.1, decode]
          rfl
      rw [if_neg string] at read
      have literal : ∀ name : Literal, name.text <+: ch :: t →
          some (name.jv, (ch :: t).drop name.text.length) = some (v, rest) →
          Spells (room + 1) s v rest := by
        intro name front same
        obtain ⟨back, whole⟩ := front
        rw [Option.some.injEq, Prod.mk.injEq] at same
        apply leaf (.literal name)
        · rw [← same.2, ← whole, List.drop_left]
          rfl
        · rfl
        · exact same.1.symm
      by_cases isTrue : trueText <+: ch :: t
      · rw [if_pos isTrue] at read
        exact literal .true isTrue read
      rw [if_neg isTrue] at read
      by_cases isFalse : falseText <+: ch :: t
      · rw [if_pos isFalse] at read
        exact literal .false isFalse read
      rw [if_neg isFalse] at read
      by_cases isNull : nullText <+: ch :: t
      · rw [if_pos isNull] at read
        exact literal .null isNull read
      rw [if_neg isNull] at read
      by_cases number : ch = minus ∨ isDigit ch = true
      · rw [if_pos number] at read
        obtain ⟨numeral, text, fits, value⟩ := parse_number_inv read
        exact leaf (.number numeral) text fits value
      · rw [if_neg number] at read
        cases read

/-! ## Texts -/

/-- `json_parse` of a document with blanks around it. -/
theorem json_parse_text (lead trail : Blank) (doc : Doc) :
    jsonParse (lead.val ++ (doc.text ++ trail.val)) =
      if doc.fine maxDepth then some doc.jv else none := by
  have ends : NumberEnds trail.val := by
    intro c head
    have inside : c ∈ trail.val := List.mem_of_mem_head? head
    have blank := trail.property c inside
    simp only [isWs] at blank
    simp only [isDigit, Marker]
    grind
  have nothing : skipWs trail.val = [] := List.dropWhile_eq_nil_iff.mpr trail.property
  rw [jsonParse, parse_value_blank, read_doc doc maxDepth trail.val ends]
  by_cases fine : doc.fine maxDepth = true
  · simp [fine, nothing]
  · simp [fine]

/-- `json_parse` succeeds on the texts of the grammar with what they stand for, and on no
other. -/
theorem json_parse_iff (s : Bytes) (v : Jv) :
    jsonParse s = some v ↔ ∃ (lead trail : Blank) (doc : Doc),
      s = lead.val ++ (doc.text ++ trail.val) ∧ doc.fine maxDepth = true ∧ v = doc.jv := by
  constructor
  · intro read
    rw [jsonParse] at read
    obtain ⟨⟨w, rest⟩, valued, read⟩ := Option.bind_eq_some_iff.mp read
    obtain ⟨lead, doc, spelled, fine, value⟩ := parse_value_inv maxDepth s w rest valued
    obtain ⟨trail, split⟩ := skip_ws_split rest
    dsimp only at read
    rcases over_ : skipWs rest with _ | ⟨c, t⟩
    · rw [over_] at read split
      cases read
      rw [List.append_nil] at split
      exact ⟨lead, trail, doc, by rw [spelled, split], fine, value⟩
    · rw [over_] at read
      cases read
  · rintro ⟨lead, trail, doc, spelled, fine, value⟩
    rw [spelled, json_parse_text, if_pos fine, value]

end GridcoreRunner.Json
