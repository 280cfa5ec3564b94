import GridcoreRunner.Template.RecoveredArguments

/-!
# Calls that are not recovered

A call that cannot be read spoils what is written for it: number bytes that are no numeral stop
every reader, and so does a parameter name that needs an escape. Only a name that leaves its
string, or a value whose length fails its buffer, can put text of the call in the place of
structure, where it may be read again.
-/

namespace GridcoreRunner.Template

set_option autoImplicit false

open GridcoreRunner.Json GridcoreRunner.Compaction

/-! ## Native arguments -/

theorem native_number_byte {c : UInt8} (numeric : isNumberByte c = true) (some_ : c ≠ 0) :
    NumberByte c := by
  simp only [isNumberByte, Bool.or_eq_true, beq_iff_eq] at numeric
  unfold NumberByte
  grind

theorem runs_of_none {lid : Lid} {entries : Entries lid} (none_ : entries.isNone = true) :
    entries.runs = [] := by
  cases entries with
  | none => rfl
  | snoc front label value => cases none_

theorem closer_stop (lid : Lid) : Stop lid.closer := by
  cases lid <;> simp [Stop, Lid.closer]

mutual

/-- The runs of a value are numerals, or the machine gets stuck. -/
theorem native_stuck : ∀ (value : Native) (room : Nat) {v : Jsonv} {stack : List Lid} {c : UInt8}
    (s : Bytes), value.Fits room → NulFree value.spelling → v.Awaits stack →
    stack.length + room < stackSize → Stop c →
    Stuck v (value.json ++ c :: s) ∨ ∀ run ∈ value.runs, IsNumeral run
  | .text _ _, _, _, _, _, _, _, _, _, _, _ => Or.inr fun _ never => by cases never
  | .word _, _, _, _, _, _, _, _, _, _, _ => Or.inr fun _ never => by cases never
  | .run digits some_ numeric, room, v, stack, c, s, _, free, awaits, small, stop => by
      have bytes : ∀ b ∈ digits, NumberByte b := fun b inside =>
        native_number_byte (numeric b inside) (free b inside)
      have read := run_stuck awaits (by omega) some_ bytes stop s
      exact read.imp_right fun numeral => List.forall_mem_singleton.mpr numeral
  | .full lid entries, room, v, stack, c, s, fits, free, awaits, small, _ => by
      obtain ⟨deeper, fits⟩ := fits
      by_cases numerals : ∀ run ∈ entries.runs, IsNumeral run
      · exact Or.inr numerals
      · left
        have whole : (Native.full lid entries).json ++ c :: s =
            [lid.opener] ++ (entries.json ++ lid.closer :: c :: s) := by
          simp [Native.json]
        rw [whole]
        apply stuck_after (leads_opener awaits lid (by omega))
        intro w entry
        have read := entries_stuck entries (room - 1) (c :: s) fits (free.sublist fun c inside =>
          List.mem_cons_of_mem _ (List.mem_append_left _ inside)) entry (by omega) (closer_stop lid)
        exact read.resolve_right numerals

theorem entries_stuck : ∀ {lid : Lid} (entries : Entries lid) (room : Nat) {v : Jsonv}
    {stack : List Lid} {c : UInt8} (s : Bytes), entries.Fits room → NulFree entries.spelling →
    v.Entry lid stack → stack.length + 1 + room < stackSize → Stop c →
    Stuck v (entries.json ++ c :: s) ∨ ∀ run ∈ entries.runs, IsNumeral run
  | _, .none _, _, _, _, _, _, _, _, _, _, _ => Or.inr fun _ never => by cases never
  | lid, .snoc front label value, room, v, stack, c, s, fits, free, entry, small, stop => by
      have early : NulFree front.spelling := free.sublist (List.subset_append_left _ _)
      have labelled : NulFree label.spelling := free.sublist fun c inside =>
        List.mem_append_right _ (List.mem_append_right _ (List.mem_append_left _ inside))
      have valued : NulFree value.spelling := free.sublist fun c inside =>
        List.mem_append_right _ (List.mem_append_right _ (List.mem_append_right _ inside))
      have whole : (Entries.snoc front label value).json ++ c :: s = front.json ++
          ((if front.isNone then [] else [comma]) ++ (label.json ++ (value.json ++ c :: s))) := by
        simp [Entries.json]
      rw [whole]
      by_cases numerals : ∀ run ∈ front.runs, IsNumeral run
      · by_cases later : ∀ run ∈ value.runs, IsNumeral run
        · exact Or.inr (List.forall_mem_append.mpr ⟨numerals, later⟩)
        · left
          -- the entries in front are documents, so the machine comes to the value
          obtain ⟨docs, text, same, deep⟩ := entries_docs front room fits.1 early numerals
          obtain ⟨named, namedText⟩ := native_label_doc label labelled
          have read := leads_entries (room + 1) (by omega) docs true entry deep
          rw [text, Bool.true_and, same] at read
          rw [← namedText]
          apply stuck_after read
          intro w between
          apply stuck_after (leads_separator between)
          intro w entry
          apply stuck_after (leads_label entry named)
          intro w inner
          have last := native_stuck value room s fits.2.2 valued inner
            (by rw [List.length_cons]; omega) stop
          exact last.resolve_right later
      · left
        have some_ : front.isNone = false := by
          by_contra none_
          rw [runs_of_none (by simpa using none_)] at numerals
          exact numerals fun run never => by cases never
        have read := entries_stuck front room (label.json ++ (value.json ++ c :: s)) fits.1 early
          entry small (Or.inr (Or.inl rfl) : Stop comma)
        rw [some_]
        exact read.resolve_right numerals

end

/-- An object is written only when every run is a numeral. -/
theorem native_object_runs {entries : Entries .brace} (free : NulFree entries.spelling)
    (fits : (Native.full .brace entries).Fits g4MaxDepth)
    (object : ObjectText (Native.full .brace entries).json) :
    ∀ run ∈ entries.runs, IsNumeral run := by
  obtain ⟨_, doc, text, _⟩ := object
  obtain ⟨entry, read, begins⟩ := leads_opener any_awaits .brace (by decide)
  have room : ([] : List Lid).length + 1 + (g4MaxDepth - 1) < stackSize := by decide
  have inner := entries_stuck entries (g4MaxDepth - 1) [] fits.2 free begins room
    (closer_stop .brace)
  apply inner.resolve_left
  intro stuck
  apply doc_not_stuck any_awaits (Nat.zero_le _) doc
  rw [text]
  exact stuck_after ⟨entry, read, rfl⟩ fun w same => same ▸ stuck

/-! ## Spliced arguments -/

/-- The name leaves its string, or the value is a text whose length fails its buffer, which
leaves a lone quote in its place. -/
def ParameterSpills (s : Bytes) (parameter : Parameter) : Prop :=
  (∃ name, parameterName s parameter = some name ∧ LeavesString (cleaned name)) ∨
    jsonParse (rawValue s parameter) = none ∧ ¬Narrows (rawValue s parameter)

/-- The parameters are readable, or the machine gets stuck before one spills. -/
theorem parameters_stuck {s : Bytes} (free : NulFree s) (t : Bytes) :
    ∀ (parameters : List Parameter) (first : Bool),
    (∀ parameter ∈ parameters, ∃ name, parameterName s parameter = some name) →
    (∀ parameter ∈ parameters, ¬ParameterSpills s parameter) →
    (∀ v : Jsonv, v.Between .brace [] first → Stuck v (parametersJson s first parameters ++ t)) ∨
      ∀ parameter ∈ parameters, ParameterReadable s parameter
  | [], _, _, _ => Or.inr fun _ never => by cases never
  | parameter :: more, first, named, stays => by
      obtain ⟨name, found⟩ := named parameter List.mem_cons_self
      have here := stays parameter List.mem_cons_self
      have later := parameters_stuck free t more false
        (fun other inside => named other (List.mem_cons_of_mem _ inside))
        fun other inside => stays other (List.mem_cons_of_mem _ inside)
      have fits : jsonParse (rawValue s parameter) = none → Narrows (rawValue s parameter) := by
        intro other
        by_contra long
        exact here (Or.inr ⟨other, long⟩)
      have whole : parametersJson s first (parameter :: more) ++ t =
          (if first then [] else [comma]) ++ (quote :: (cleaned name ++ quote :: (colon ::
            (parameterValue s parameter ++ (parametersJson s false more ++ t))))) := by
        simp [parametersJson, found]
      rw [whole]
      by_cases inner : Inner (cleaned name)
      · rcases later with stuck | readable
        · left
          intro v between
          obtain ⟨chars, text⟩ := inner
          obtain ⟨doc, docText, deep⟩ := parameter_value_doc free parameter fits
          have shallow := (nesting_le_depth doc).trans deep
          have room : ([Lid.brace] : List Lid).length + maxDepth ≤ stackSize := by decide
          have spelled : quote :: (cleaned name ++ quote :: (colon ::
              (parameterValue s parameter ++ (parametersJson s false more ++ t)))) =
                (bareLabel chars).text ++ (doc.text ++ (parametersJson s false more ++ t)) := by
            simp [text, docText]
          rw [spelled]
          apply stuck_after (leads_separator between)
          intro w entry
          apply stuck_after (leads_label entry (bareLabel chars))
          intro w value
          apply stuck_after (leads_doc doc value (by omega))
          intro w closed
          exact stuck w ⟨_, closed⟩
        · exact Or.inr (List.forall_mem_cons.mpr ⟨⟨⟨name, found, inner⟩, fits⟩, readable⟩)
      · left
        intro v between
        apply stuck_after (leads_separator between)
        intro w entry
        rcases name_stuck entry (by decide) (cleaned name) _ with stuck | leaves | inside
        · exact stuck
        · exact absurd (Or.inl ⟨name, found, leaves⟩) here
        · exact absurd inside inner

/-- Spliced arguments are an object only when every parameter is readable, or one spills. -/
theorem spliced_object_readable {s : Bytes} (free : NulFree s) {parameters : List Parameter}
    (named : ∀ parameter ∈ parameters, ∃ name, parameterName s parameter = some name)
    (stays : ∀ parameter ∈ parameters, ¬ParameterSpills s parameter)
    (object : ObjectText (lbrace :: (parametersJson s true parameters ++ [rbrace]))) :
    ∀ parameter ∈ parameters, ParameterReadable s parameter := by
  obtain ⟨_, doc, text, _⟩ := object
  apply (parameters_stuck free [rbrace] parameters true named stays).resolve_left
  intro stuck
  apply doc_not_stuck any_awaits (Nat.zero_le _) doc
  rw [text]
  exact stuck_after (leads_opener any_awaits .brace (by decide)) stuck

/-! ## Items that fail the buffer -/

/-- The buffer fails inside the name of the call, or inside its arguments. -/
def Call.Fails (call : Call) : Prop :=
  call.name = none ∨ ∃ name text rest spelled, call.name = some name ∧ NulFree name ∧
    call.arguments = written text ++ none :: rest ∧ Pieces text spelled

/-- The key of a string, and the quote that opens it. -/
theorem leads_key {v : Jsonv} {stack : List Lid} (entry : v.Entry .brace stack) (key : Chars) :
    Leads v ((bareLabel key).text ++ [quote]) (Jsonv.Inside .string (.brace :: stack)) :=
  leads_append (leads_label entry (bareLabel key)) fun _ awaits => leads_quote awaits

/-- Behind an open string no array ends. -/
theorem open_not_parsed {s : Bytes} {stack : List Lid}
    (opens : Leads jsonvInitAny (lbracket :: s) (Jsonv.Inside .string stack)) :
    jsonParse (lbracket :: (s ++ [rbracket])) = none := by
  cases parsed : jsonParse (lbracket :: (s ++ [rbracket])) with
  | none => rfl
  | some value =>
      exfalso
      obtain ⟨lead, trail, doc, text, fine, _⟩ := (json_parse_iff _ _).mp parsed
      have bare : lead.val = [] := by
        obtain ⟨bytes, blank⟩ := lead
        cases bytes with
        | nil => rfl
        | cons c bytes =>
            have ws := blank c List.mem_cons_self
            rw [← (List.cons.inj text).1] at ws
            cases ws
      have closed : trail.val = [] := by
        obtain ⟨bytes, blank⟩ := trail
        rcases List.eq_nil_or_concat bytes with none_ | ⟨front, c, last⟩
        · exact none_
        · rw [List.concat_eq_append] at last
          have ends : lbracket :: s ++ [rbracket] = lead.val ++ (doc.text ++ front) ++ [c] := by
            rw [List.cons_append, text]
            simp [last]
          have ws := blank c (by rw [last]; exact List.mem_append_right _ List.mem_cons_self)
          rw [← List.singleton_injective (List.append_inj' ends rfl).2] at ws
          cases ws
      rw [bare, closed, List.nil_append, List.append_nil, ← List.cons_append] at text
      have shallow := (nesting_le_depth doc).trans ((doc_fine_iff doc maxDepth).mp fine).2
      have room : ([] : List Lid).length + maxDepth ≤ stackSize := by decide
      obtain ⟨w, fed, ended⟩ := leads_doc doc any_awaits (by omega)
      have goes_on : Leads jsonvInitAny (lbracket :: s ++ [rbracket])
          (Jsonv.Inside .string stack) := by
        apply leads_append opens
        intro u inside
        exact leads_chars inside (Or.inr rfl) [.raw rbracket (by decide)]
      obtain ⟨u, read, at_, _⟩ := goes_on
      rw [text, fed] at read
      cases read
      rcases ended with ⟨_, done_⟩ | ⟨_, _, _, whole⟩
      · rw [if_pos rfl, at_.1] at done_
        cases done_.1
      · rw [at_.1] at whole
        rcases whole with never | never | never | never <;> cases never

/-- The machine comes to the inner object of an item. -/
theorem item_opens (index : Nat) {v : Jsonv} (awaits : v.Awaits [.bracket]) : ∃ front : Bytes,
    itemOpen ++ (Decimal.ofNat index ++ itemName) =
        front ++ (quote :: (nameKey ++ [quote, colon]) ++ [quote]) ∧
      Leads v front (Jsonv.Entry .brace [.brace, .bracket]) := by
  obtain ⟨idChars, idText, _⟩ := word_pieces (s := idKey) (by decide +kernel)
  obtain ⟨typeChars, typeText, _⟩ := word_pieces (s := typeKey) (by decide +kernel)
  obtain ⟨fnChars, fnText, _⟩ := word_pieces (s := functionKey) (by decide +kernel)
  obtain ⟨callChars, callText, _⟩ := index_pieces index
  let early : Body .brace := .snoc
    (.snoc (.none .brace) (bareLabel idChars) (.leaf (.string callChars)) Blank.none)
    (bareLabel typeChars) (.leaf (.string fnChars)) Blank.none
  refine ⟨[Lid.brace.opener] ++ (early.text ++ ((bareLabel fnChars).text ++ [Lid.brace.opener])),
    ?_, ?_⟩
  · simp only [early, Body.text, Doc.text, Scalar.text, bare_label_text, idText, typeText, fnText,
      callText, Blank.none]
    simp [idKey, callId, typeKey, functionKey, nameKey, itemOpen, itemName, Lid.opener]
  · apply leads_append (leads_opener awaits .brace (by decide))
    intro w entry
    have room : early.nesting = 0 := by simp [early, Body.nesting, Doc.nesting]
    apply leads_append (leads_body early entry (by rw [room]; decide))
    intro w entry
    apply leads_append (leads_label entry (bareLabel fnChars))
    intro w inner
    exact leads_opener inner .brace (by decide)

/-- What is written for a call that fails the buffer ends inside a string. -/
theorem failed_item_open {call : Call} (fails : call.Fails) (index : Nat) (more : Written)
    {v : Jsonv} (awaits : v.Awaits [.bracket]) :
    Leads v (Written.bytes (callItem index call ++ more))
      (Jsonv.Inside .string [.brace, .brace, .bracket]) := by
  obtain ⟨nameChars, nameText, _⟩ := word_pieces (s := nameKey) (by decide +kernel)
  obtain ⟨front, opened, begins⟩ := item_opens index awaits
  rcases fails with unnamed | ⟨name, text, rest, spelled, named, free, failed, pieces⟩
  · have bytes : Written.bytes (callItem index call ++ more) =
        itemOpen ++ (Decimal.ofNat index ++ itemName) := by
      rw [callItem, unnamed, List.append_assoc, written_bytes_append]
      exact List.append_nil _
    rw [bytes, opened]
    apply leads_append begins
    intro w entry
    have key := leads_key entry nameChars
    rwa [bare_label_text, nameText] at key
  · obtain ⟨argChars, argText, _⟩ := word_pieces (s := argumentsKey) (by decide +kernel)
    obtain ⟨calleeChars, calleeText, _⟩ := pieces_escaped free
    obtain ⟨chars, charsText, _⟩ := pieces
    let early : Body .brace :=
      .snoc (.none .brace) (bareLabel nameChars) (.leaf (.string calleeChars)) Blank.none
    have bytes : Written.bytes (callItem index call ++ more) =
        itemOpen ++ (Decimal.ofNat index ++ itemName) ++
          (sbEsc name ++ (itemArguments ++ text)) := by
      rw [callItem, named, failed, escaped]
      simp only [List.append_assoc, List.cons_append, written_bytes_append]
      simp [Written.bytes]
    have parts : front ++ (quote :: (nameKey ++ [quote, colon]) ++ [quote]) ++
        (sbEsc name ++ (itemArguments ++ text)) =
          front ++ (early.text ++ ((bareLabel argChars).text ++ [quote] ++ chars.text)) := by
      simp [early, Body.text, Doc.text, Scalar.text, nameText, calleeText, argText, charsText,
        Blank.none, itemArguments, argumentsKey, quote, comma, colon]
    rw [bytes, opened, parts]
    apply leads_append begins
    intro w entry
    have room : early.nesting = 0 := by simp [early, Body.nesting, Doc.nesting]
    apply leads_append (leads_body early entry (by rw [room]; decide))
    intro w entry
    apply leads_append (leads_key entry argChars)
    intro w inside
    exact leads_chars inside (Or.inr rfl) chars

/-- Behind a call that fails the buffer the array is not closed. -/
theorem failed_items (scanner : Scanner UInt8 Call (Option UInt8)) (emits : scanner.emit = emitItem)
    {front : List Call} {call : Call} (whole : ∀ other ∈ front, other.Whole) (fails : call.Fails)
    (back : List Call) : jsonParse (lbracket ::
      (Written.bytes (scanner.emitted 0 (front ++ call :: back)) ++ [rbracket])) = none := by
  obtain ⟨body, text, _, fine⟩ := items_body scanner emits front whole
  have split : scanner.emitted 0 (front ++ call :: back) = written body.text ++
      (callItem front.length call ++ scanner.emitted (front.length + 1) back) := by
    rw [emitted_append, Scanner.emitted, emits, emitItem, Nat.zero_add, ← text]
    by_cases none_ : front = [] <;> simp [none_]
  have deep := ((body_fine_iff body (maxDepth - 1)).mp fine).2.1
  have shallow := (body_nesting_le_depth body).trans deep
  have room : ([] : List Lid).length + 1 + (maxDepth - 1) ≤ stackSize := by decide
  rw [split, written_bytes_append]
  apply open_not_parsed
  apply leads_append (leads_opener any_awaits .bracket (by decide))
  intro w entry
  apply leads_append (leads_body body entry (by omega))
  intro w entry
  obtain ⟨u, fed, awaits⟩ := leads_label entry bareItem
  cases fed
  exact failed_item_open fails _ _ awaits

/-- All calls are whole, or a first one fails. -/
theorem whole_or_fails {calls : List Call} (each : ∀ call ∈ calls, call.Whole ∨ call.Fails) :
    (∀ call ∈ calls, call.Whole) ∨ ∃ front call back, calls = front ++ call :: back ∧
      (∀ other ∈ front, other.Whole) ∧ call.Fails := by
  induction calls with
  | nil => exact Or.inl fun _ never => by cases never
  | cons call calls induction =>
      rcases each call List.mem_cons_self with whole | fails
      · rcases induction fun other inside => each other (List.mem_cons_of_mem _ inside) with
          all | ⟨front, bad, back, rfl, before, fails⟩
        · exact Or.inl (List.forall_mem_cons.mpr ⟨whole, all⟩)
        · have early := List.forall_mem_cons.mpr ⟨whole, before⟩
          exact Or.inr ⟨call :: front, bad, back, rfl, early, fails⟩
      · exact Or.inr ⟨[], call, calls, rfl, (fun _ never => by cases never), fails⟩

/-! ## What a call says about its text -/

theorem narrowed_none {s : Bytes} (long : ¬Narrows s) : narrowed s = none := if_neg long

theorem replayed_call_fails {s : Bytes} {call : Call} {n : Nat} (free : NulFree s)
    (read : replayedCall s = .done (call, n)) :
    call.Whole ∧ ReplayedReadable s ∨ call.Fails := by
  obtain ⟨block, found, name, arguments, _⟩ := replayed_call_reads read
  have named := name.trans (narrowed_some (replayed_name_narrows found))
  have callee := narrowed_slice_free free (narrowed_some (replayed_name_narrows found))
  by_cases fits : Narrows (slice s block.brace block.q)
  · left
    rw [narrowed_some fits] at arguments
    refine ⟨⟨⟨_, named, callee⟩, _, _, arguments,
      pieces_escaped (narrowed_slice_free free (narrowed_some fits))⟩, ?_⟩
    intro other same
    rw [found] at same
    cases same
    exact fits
  · right
    rw [narrowed_none fits] at arguments
    exact Or.inr ⟨_, [], [], [], named, callee, arguments, pieces_nil⟩

/-- The parameters all have their names, or the buffer fails at the first without. -/
theorem parameters_fail {s : Bytes} (free : NulFree s) : ∀ (parameters : List Parameter)
    (first : Bool), (∀ parameter ∈ parameters, ∃ name, parameterName s parameter = some name) ∨
      ∃ text rest spelled, parametersText s first parameters = written text ++ none :: rest ∧
        Pieces text spelled
  | [], _ => Or.inl fun _ never => by cases never
  | parameter :: more, first => by
      cases found : parameterName s parameter with
      | none =>
          right
          refine ⟨_, written (backslash :: quote :: colon :: sbEsc (parameterValue s parameter)) ++
            parametersText s false more, _, ?_, (separator_pieces first).append pieces_quote⟩
          simp [parametersText, parameterItem, found, escaped]
      | some name =>
          rcases parameters_fail free more false with named | ⟨text, rest, spelled, failed, pieces⟩
          · exact Or.inl (List.forall_mem_cons.mpr ⟨⟨name, found⟩, named⟩)
          · right
            obtain ⟨early, earlyText, earlyPieces⟩ := parameter_pieces free first found
            refine ⟨early ++ text, rest, _, ?_, earlyPieces.append pieces⟩
            rw [parametersText, earlyText, failed, written_append, List.append_assoc]

theorem ornith_call_fails {s : Bytes} {call : Call} {n : Nat} (free : NulFree s)
    (read : ornithCall s = .done (call, n)) : (∃ block parameters, ornithBlock s = some block ∧
      Parameters s block.fnEnd (block.nameEnd + 1) parameters ∧
      Narrows (slice s block.name block.nameEnd) ∧
      (∀ parameter ∈ parameters, ∃ name, parameterName s parameter = some name) ∧ call.Whole ∧
      call.Spells (lbrace :: (parametersJson s true parameters ++ [rbrace]))) ∨ call.Fails := by
  rcases ornith_call_reads s with ⟨_, answer⟩ | ⟨block, parameters, found, recorded, answer⟩
  · rw [answer] at read
    cases read
  · rw [answer] at read
    cases read
    by_cases narrows : Narrows (slice s block.name block.nameEnd)
    · have named := narrowed_some narrows
      have callee := narrowed_slice_free free named
      rcases parameters_fail free parameters true with all | ⟨text, rest, spelled, failed, pieces⟩
      · left
        obtain ⟨_, spells⟩ := ornith_spells free all (narrowed (slice s block.name block.nameEnd))
        exact ⟨block, parameters, found, recorded, narrows, all, ⟨⟨_, named, callee⟩, _, spells⟩,
          spells⟩
      · right
        have opened : Pieces [lbrace] [lbrace] := pieces_raw (by decide) (by decide)
        refine Or.inr ⟨_, _, rest ++ written [rbrace], _, named, callee, ?_, opened.append pieces⟩
        simp [failed, written]
    · exact Or.inr (Or.inl (narrowed_none narrows))

/-- The reader of an object in the native syntax finds no other one in it. -/
theorem g4_call_spelled {s name rest : Bytes} {entries : Entries .brace} {call : Call} {n : Nat}
    (read : g4OneCall s = .done (call, n)) (plain : ∀ c ∈ name, c ≠ lbrace)
    (fits : (Native.full .brace entries).Fits g4MaxDepth)
    (spelled : s = callOpen ++ (name ++ ((Native.full .brace entries).spelling ++ rest))) :
    call =
      { name := some name, arguments := written (sbEsc (Native.full .brace entries).json) } := by
  have shape : (Native.full .brace entries).spelling ++ rest =
      lbrace :: (entries.spelling ++ rbrace :: rest) := by
    simp [Native.spelling, Lid.opener, Lid.closer]
  have valued := native_reads (.full .brace entries) g4MaxDepth rest fits
    fun never => by cases never
  rw [shape] at valued spelled
  rw [spelled, g4_one_call plain valued] at read
  by_cases empty : name = []
  · rw [if_pos empty] at read
    cases read
  · rw [if_neg empty] at read
    cases read
    rfl

theorem Parameters.unique {s : Bytes} {fnEnd a : Nat} {parameters parameters' : List Parameter}
    (recorded : Parameters s fnEnd a parameters) (recorded' : Parameters s fnEnd a parameters') :
    parameters' = parameters := by
  induction recorded generalizing parameters' with
  | done finished =>
      cases recorded' with
      | done => rfl
      | next before found later =>
          rw [finished before] at found
          cases found
  | next before found later induction =>
      cases recorded' with
      | done finished =>
          rw [finished before] at found
          cases found
      | next before' found' later' =>
          rw [found] at found'
          cases found'
          rw [induction later']

theorem Call.Whole.not_fails {call : Call} (whole : call.Whole) : ¬call.Fails := by
  rintro (unnamed | ⟨_, text, rest, _, _, _, failed, _⟩)
  · obtain ⟨⟨name, named, _⟩, _⟩ := whole
    rw [unnamed] at named
    cases named
  · obtain ⟨_, _, other, same, _⟩ := whole
    have inside : none ∈ written other := by
      rw [← same, failed]
      exact List.mem_append_right _ List.mem_cons_self
    obtain ⟨_, _, never⟩ := List.mem_map.mp inside
    cases never

theorem call_whole_or_fails {tmpl : Tmpl} {s : Bytes} {call : Call} {n : Nat} (free : NulFree s)
    (read : (scannerFor tmpl).blockAt s = .done (call, n)) : call.Whole ∨ call.Fails := by
  rcases block_at_done read with ⟨_, found⟩ | ⟨_, found⟩ | ⟨_, found⟩
  · rcases ornith_call_fails free found with ⟨_, _, _, _, _, _, whole, _⟩ | fails
    · exact Or.inl whole
    · exact Or.inr fails
  · obtain ⟨name, entries, rest, _, _, _, spelled, rfl, _⟩ := g4_call_reads found
    obtain ⟨named, _, spells⟩ := g4_spells free spelled
    exact Or.inl ⟨⟨name, rfl, named⟩, _, spells⟩
  · exact (replayed_call_fails free found).imp_left And.left

/-- A parameter of the call spills. -/
def OrnithSpills (s : Bytes) : Prop :=
  ∃ block parameters, ornithBlock s = some block ∧
    Parameters s block.fnEnd (block.nameEnd + 1) parameters ∧
    ∃ parameter ∈ parameters, ParameterSpills s parameter

/-- A whole call with an object for its arguments was read from readable text. -/
theorem whole_call_readable {tmpl : Tmpl} {s : Bytes} {call : Call} {n : Nat} (free : NulFree s)
    (read : (scannerFor tmpl).blockAt s = .done (call, n)) (whole : call.Whole)
    (object : Converts tmpl → ∀ arguments, call.Spells arguments → ObjectText arguments)
    (stays : tmpl = .ornith → ¬OrnithSpills s) : Readable tmpl s := by
  rcases block_at_done read with ⟨ornith, found⟩ | ⟨gemma4, found⟩ | ⟨plain, found⟩
  · refine ⟨fun _ => ?_, fun gemma4 => ?_, fun plain => absurd (Or.inl ornith) plain⟩
    · obtain ⟨block, parameters, begins, recorded, narrows, named, _, spells⟩ :=
        (ornith_call_fails free found).resolve_right whole.not_fails
      intro block' parameters' begins' recorded'
      rw [begins] at begins'
      cases begins'
      rw [recorded.unique recorded']
      refine ⟨narrows, spliced_object_readable free named ?_ (object (Or.inl ornith) _ spells)⟩
      intro parameter inside spills
      exact stays ornith ⟨block, parameters, begins, recorded, parameter, inside, spills⟩
    · rw [ornith] at gemma4
      cases gemma4
  · refine ⟨fun ornith => ?_, fun _ => ?_, fun plain => absurd (Or.inr gemma4) plain⟩
    · rw [ornith] at gemma4
      cases gemma4
    · intro name entries rest named fits spelled
      obtain ⟨_, native, spells⟩ := g4_spells free spelled
      have same := g4_call_spelled found named fits spelled
      have entriesFree : NulFree entries.spelling := native.sublist fun c inside =>
        List.mem_cons_of_mem _ (List.mem_append_left _ inside)
      exact native_object_runs entriesFree fits (object (Or.inr gemma4) _ (same ▸ spells))
  · refine ⟨fun ornith => absurd (Or.inl ornith) plain, fun gemma4 => absurd (Or.inr gemma4) plain,
      fun _ => ?_⟩
    exact ((replayed_call_fails free found).resolve_right whole.not_fails).2

/-! ## The whole content -/

/-- What a recovery says about the calls that are cut. -/
theorem Recovers.of_cuts {tmpl : Tmpl} {content tc : Bytes} (recovers : Recovers tmpl content tc)
    {calls : List Call} {left : Bytes} (cuts : Cuts (scannerFor tmpl).blockAt content calls left) :
    (calls = [] ∨ isGemma4 tmpl = true ∨ asSize left.length = left.length) ∧
      ∃ items, jsonParse (lbracket :: (Written.bytes ((scannerFor tmpl).emitted 0 calls) ++
          [rbracket])) = some (.arr items) ∧
        ∀ (index : Nat) (item : Jv), items[index]? = some item → ∃ name arguments,
          item = callValue index name arguments ∧ (Converts tmpl → ObjectText arguments) := by
  obtain ⟨_, _, added, items, again, run, _, parsed, _, objects⟩ := recovers
  obtain ⟨rfl, rfl⟩ := again.unique cuts
  obtain ⟨_, _, cells, again, whole, length, _⟩ := recover_runs (scanner_lawful tmpl)
    (if isGemma4 tmpl = true then id else asSize) content tc
  obtain ⟨rfl, rfl⟩ := again.unique cuts
  rw [parse_for_scanner, whole, Outcome.done.injEq, Recovered.mk.injEq,
    List.append_cancel_left_eq] at run
  obtain ⟨published, emitted, _⟩ := run
  refine ⟨?_, items, by rw [emitted]; exact parsed, objects⟩
  by_cases none_ : calls = []
  · exact Or.inl none_
  by_cases gemma4 : isGemma4 tmpl = true
  · exact Or.inr (Or.inl gemma4)
  · -- something is cut, so what is published is shorter than the content
    rw [if_neg none_, if_neg gemma4] at published
    have size := congrArg List.length published
    have some_ := List.length_pos_iff.mpr none_
    have less := cuts.length_le
    rw [List.length_take] at size
    exact Or.inr (Or.inr (by omega))

/-- A call of an Ornith content that spills. -/
def Spills (tmpl : Tmpl) (content : Bytes) : Prop :=
  tmpl = .ornith ∧ ∃ rest, CutAt (scannerFor tmpl).blockAt content rest ∧ OrnithSpills rest

/-- What is recovered from was recoverable, but for parameters that spill. -/
theorem recovers_recoverable {tmpl : Tmpl} {content tc : Bytes} (free : NulFree content)
    (recovers : Recovers tmpl content tc) (stays : ¬Spills tmpl content) :
    Recoverable tmpl content := by
  obtain ⟨calls, left, _, _, cuts, _⟩ := id recovers
  obtain ⟨_, items, parsed, objects⟩ := recovers.of_cuts cuts
  have each := cuts.items_hold (fun call => call.Whole ∨ call.Fails) fun rest at_ call n read =>
    call_whole_or_fails (free.sublist at_.suffix.subset) read
  have whole : ∀ call ∈ calls, call.Whole := by
    apply (whole_or_fails each).resolve_right
    rintro ⟨front, call, back, rfl, before, fails⟩
    rw [failed_items _ (scanner_emits tmpl) before fails back] at parsed
    cases parsed
  obtain ⟨added, values, emitted, again, counted, beside⟩ :=
    items_array (scannerFor tmpl) (scanner_emits tmpl) calls whole
  rw [emitted, written_bytes, again, Option.some.injEq, Jv.arr.injEq] at parsed
  refine ⟨?_, ?_⟩
  · by_cases gemma4 : isGemma4 tmpl = true
    · exact Or.inl gemma4
    · right
      intro calls left cuts
      rcases (recovers.of_cuts cuts).1 with none_ | never | size
      · exact Or.inl none_
      · exact absurd never gemma4
      · exact Or.inr size
  · intro rest at_
    have inside := free.sublist at_.suffix.subset
    obtain ⟨call, n, read, member⟩ := at_.item_mem cuts (scanner_lawful tmpl).empty
    apply whole_call_readable inside read (whole call member)
    · intro converts arguments spells
      obtain ⟨index, bound, here⟩ := List.getElem_of_mem member
      have place : index < values.length := by omega
      obtain ⟨name, spelled, _, spells', shape⟩ := beside index call values[index]
        (List.getElem?_eq_some_iff.mpr ⟨bound, here⟩) (List.getElem?_eq_getElem place)
      obtain ⟨name', arguments', shape', object⟩ := objects index values[index]
        (by rw [← parsed]; exact List.getElem?_eq_getElem place)
      rw [shape, callValue, callValue] at shape'
      simp only [Jv.obj.injEq, List.cons.injEq, Jv.str.injEq, true_and, and_true] at shape'
      rw [← spells.unique spells', shape'.2]
      exact object converts
    · intro ornith spills
      exact stays ⟨ornith, rest, at_, spills⟩

/-- Free text without a NUL is recovered from when its calls are readable. Where no parameter
spills, it is recovered from only then. -/
theorem tool_calls_recovered (tmpl : Tmpl) (content tc : Bytes) (free : NulFree content) :
    (Recoverable tmpl content → Recovers tmpl content tc) ∧
      (Recovers tmpl content tc → Recoverable tmpl content ∨ Spills tmpl content) := by
  refine ⟨recoverable_recovers tmpl content tc free, fun recovers => ?_⟩
  by_cases spills : Spills tmpl content
  · exact Or.inr spills
  · exact Or.inl (recovers_recoverable free recovers spills)

/-- `Hi <tool_call><function=f><parameter=a>true</parameter></function></tool_call>` -/
def plainParameter : Bytes :=
  [0x48, 0x69, 0x20, 0x3c, 0x74, 0x6f, 0x6f, 0x6c, 0x5f, 0x63, 0x61, 0x6c, 0x6c, 0x3e, 0x3c,
    0x66, 0x75, 0x6e, 0x63, 0x74, 0x69, 0x6f, 0x6e, 0x3d, 0x66, 0x3e, 0x3c, 0x70, 0x61, 0x72,
    0x61, 0x6d, 0x65, 0x74, 0x65, 0x72, 0x3d, 0x61, 0x3e, 0x74, 0x72, 0x75, 0x65, 0x3c, 0x2f,
    0x70, 0x61, 0x72, 0x61, 0x6d, 0x65, 0x74, 0x65, 0x72, 0x3e, 0x3c, 0x2f, 0x66, 0x75, 0x6e,
    0x63, 0x74, 0x69, 0x6f, 0x6e, 0x3e, 0x3c, 0x2f, 0x74, 0x6f, 0x6f, 0x6c, 0x5f, 0x63, 0x61,
    0x6c, 0x6c, 0x3e]

theorem plain_parameter_raw : ∀ c ∈ plainParameter, c ≠ 0 ∧ StandsRaw c := by
  have plain : plainParameter.all (fun c => decide (c ≠ 0 ∧ StandsRaw c)) = true := rfl
  intro c inside
  exact of_decide_eq_true (List.all_eq_true.mp plain c inside)

theorem plain_parameter_recoverable : Recoverable .ornith plainParameter := by
  have short : plainParameter.length < 2 ^ 31 := by decide
  refine ⟨Or.inr fun calls left cuts => Or.inr ?_, ?_⟩
  · have size := cuts.length_le
    exact as_size_small (by omega)
  · intro rest at_
    have inside := at_.suffix.subset
    have narrows : ∀ p q, Narrows (slice rest p q) := fun p q => short_narrows
      (((slice_length_le rest p q).trans at_.suffix.length_le).trans_lt short)
    refine ⟨fun _ block parameters _ _ => ⟨narrows _ _, fun parameter _ => ⟨?_, fun _ =>
      narrows _ _⟩⟩, fun never => (by cases never), fun never => absurd (Or.inl rfl) never⟩
    have found := narrowed_some (narrows parameter.name parameter.nameEnd)
    have named : ∀ c ∈ (slice rest parameter.name parameter.nameEnd).take
        ((slice rest parameter.name parameter.nameEnd).length % 2 ^ 32), c ≠ 0 ∧ StandsRaw c :=
      fun c member => plain_parameter_raw c
        (inside (slice_subset rest _ _ (List.mem_of_mem_take member)))
    exact ⟨_, found, raw_inner (fun c member => (named c member).1) fun c member =>
      (named c member).2⟩

/-- `<|tool_call>call:f{a:-}` -/
def dashArgument : Bytes :=
  [0x3c, 0x7c, 0x74, 0x6f, 0x6f, 0x6c, 0x5f, 0x63, 0x61, 0x6c, 0x6c, 0x3e, 0x63, 0x61, 0x6c,
    0x6c, 0x3a, 0x66, 0x7b, 0x61, 0x3a, 0x2d, 0x7d]

theorem dash_no_numeral : ¬IsNumeral [minus] := by
  rintro ⟨numeral, text⟩
  obtain ⟨w, fed, closed⟩ := leads_doc (.leaf (.number numeral)) any_awaits (Nat.zero_le _)
  rw [Doc.text, Scalar.text, text] at fed
  cases fed
  rcases closed with ⟨_, never⟩ | ⟨_, _, _, whole⟩
  · cases never.1
  · rcases whole with never | never | never | never <;> cases never

theorem dash_not_recoverable : ¬Recoverable .gemma4 dashArgument := by
  rintro ⟨_, readable⟩
  let key : NativeKey := ⟨[0x61], List.cons_ne_nil _ _, List.forall_mem_singleton.mpr (by decide)⟩
  let entries : Entries .brace := .snoc (.none .brace) (.member key)
    (.run [minus] (List.cons_ne_nil _ _) (List.forall_mem_singleton.mpr rfl))
  obtain ⟨found, begins⟩ : ∃ found, (scannerFor .gemma4).blockAt dashArgument = .done found :=
    ⟨_, rfl⟩
  apply dash_no_numeral
  apply (readable dashArgument (.here begins)).2.1 rfl [0x66] entries []
    (List.forall_mem_singleton.mpr (by decide)) _ rfl
  · exact List.mem_cons_self
  · exact ⟨by decide, trivial, fun _ same => absurd (Option.some.inj same) (by decide), trivial⟩

/-- Free text in front of an Ornith call with one parameter is recovered from, and a Gemma 4 call
with a lone dash for its number is not. -/
theorem ornith_call_recovered :
    Recovers .ornith plainParameter [] ∧ ¬Recovers .gemma4 dashArgument [] := by
  refine ⟨?_, fun recovers => ?_⟩
  · apply (tool_calls_recovered .ornith plainParameter [] ?_).1 plain_parameter_recoverable
    intro c inside
    exact (plain_parameter_raw c inside).1
  · have some_ : dashArgument.all (fun c => decide (c ≠ 0)) = true := rfl
    have free : NulFree dashArgument := by
      intro c inside
      exact of_decide_eq_true (List.all_eq_true.mp some_ c inside)
    rcases (tool_calls_recovered .gemma4 dashArgument [] free).2 recovers with readable | ⟨never, _⟩
    · exact dash_not_recoverable readable
    · cases never

/-- `<tool_call><function=f><parameter=a"b>true</parameter></function></tool_call>` -/
def quotedParameter : Bytes :=
  [0x3c, 0x74, 0x6f, 0x6f, 0x6c, 0x5f, 0x63, 0x61, 0x6c, 0x6c, 0x3e, 0x3c, 0x66, 0x75, 0x6e,
    0x63, 0x74, 0x69, 0x6f, 0x6e, 0x3d, 0x66, 0x3e, 0x3c, 0x70, 0x61, 0x72, 0x61, 0x6d, 0x65,
    0x74, 0x65, 0x72, 0x3d, 0x61, 0x22, 0x62, 0x3e, 0x74, 0x72, 0x75, 0x65, 0x3c, 0x2f, 0x70,
    0x61, 0x72, 0x61, 0x6d, 0x65, 0x74, 0x65, 0x72, 0x3e, 0x3c, 0x2f, 0x66, 0x75, 0x6e, 0x63,
    0x74, 0x69, 0x6f, 0x6e, 0x3e, 0x3c, 0x2f, 0x74, 0x6f, 0x6f, 0x6c, 0x5f, 0x63, 0x61, 0x6c,
    0x6c, 0x3e]

/-- What is written for it. -/
def quotedItem : Bytes :=
  [0x7b, 0x22, 0x69, 0x64, 0x22, 0x3a, 0x22, 0x63, 0x61, 0x6c, 0x6c, 0x5f, 0x30, 0x22, 0x2c,
    0x22, 0x74, 0x79, 0x70, 0x65, 0x22, 0x3a, 0x22, 0x66, 0x75, 0x6e, 0x63, 0x74, 0x69, 0x6f,
    0x6e, 0x22, 0x2c, 0x22, 0x66, 0x75, 0x6e, 0x63, 0x74, 0x69, 0x6f, 0x6e, 0x22, 0x3a, 0x7b,
    0x22, 0x6e, 0x61, 0x6d, 0x65, 0x22, 0x3a, 0x22, 0x66, 0x22, 0x2c, 0x22, 0x61, 0x72, 0x67,
    0x75, 0x6d, 0x65, 0x6e, 0x74, 0x73, 0x22, 0x3a, 0x22, 0x7b, 0x5c, 0x22, 0x61, 0x5c, 0x22,
    0x62, 0x5c, 0x22, 0x3a, 0x74, 0x72, 0x75, 0x65, 0x7d, 0x22, 0x7d, 0x7d]

/-- `{"a"b":true}` -/
def quotedArguments : Bytes :=
  [0x7b, 0x22, 0x61, 0x22, 0x62, 0x22, 0x3a, 0x74, 0x72, 0x75, 0x65, 0x7d]

/-- The quote in the name is escaped for the item, but not for the object inside. -/
theorem quoted_parameter_spliced : ¬Recovers .ornith quotedParameter [] := by
  rintro ⟨calls, left, added, items, _, run, _, parsed, _, objects⟩
  have parse : toolCallsParseFor .ornith quotedParameter [] = .done ⟨[], quotedItem, 1⟩ := rfl
  have array : jsonParse (lbracket :: (quotedItem ++ [rbracket])) =
      some (.arr [callValue 0 [0x66] quotedArguments]) := rfl
  rw [parse, Outcome.done.injEq, Recovered.mk.injEq, List.nil_append] at run
  rw [← run.2.1, array, Option.some.injEq, Jv.arr.injEq] at parsed
  obtain ⟨name, arguments, shape, object⟩ := objects 0 _ (by rw [← parsed]; rfl)
  simp only [callValue, Jv.obj.injEq, List.cons.injEq, Jv.str.injEq, true_and, and_true] at shape
  rw [← shape.2] at object
  obtain ⟨_, doc, text, isObject⟩ := object (Or.inl rfl)
  apply doc_not_stuck any_awaits (Nat.zero_le _) doc
  rw [text]
  obtain ⟨u, fed⟩ : ∃ u, jsonvFeed jsonvInitAny [lbrace, quote, 0x61, quote] = some u := ⟨_, rfl⟩
  refine ⟨_, 0x62, [quote, colon, 0x74, 0x72, 0x75, 0x65, rbrace], u, rfl, fed, ?_, ?_⟩
  · cases fed
    decide
  · cases fed
    rfl

end GridcoreRunner.Template
