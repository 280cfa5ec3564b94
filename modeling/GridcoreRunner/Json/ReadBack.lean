import GridcoreRunner.Json.ReadScalars

/-!
# The parser reads documents back

`json_parse` of a document's text gives the document's value when the document is
fine and fails when it is not: one equation for each function of the parser, by
the structure of the syntax tree.
-/

namespace GridcoreRunner.Json

set_option autoImplicit false

/-! ## Whitespace -/

theorem skip_ws_blank (w : Blank) (s : Bytes) : skipWs (w.val ++ s) = skipWs s := by
  rcases w with ⟨w, ws⟩
  induction w with
  | nil => rfl
  | cons c w induction =>
      have here : isWs c = true := ws c (by simp)
      have rest := induction fun b member => ws b (List.mem_cons_of_mem _ member)
      simp only [skipWs, List.cons_append] at rest ⊢
      rw [List.dropWhile_cons_of_pos here]
      exact rest

theorem skip_ws_solid {c : UInt8} (solid : isWs c = false) (s : Bytes) :
    skipWs (c :: s) = c :: s := by
  simp [skipWs, solid]

@[simp] theorem skip_ws_twice (s : Bytes) : skipWs (skipWs s) = skipWs s := by
  induction s with
  | nil => rfl
  | cons c s induction =>
      cases ws : isWs c with
      | true => simpa [skipWs, ws] using induction
      | false => rw [skip_ws_solid ws, skip_ws_solid ws]

theorem parse_value_skip (room : Nat) (s : Bytes) :
    parseValue room (skipWs s) = parseValue room s := by
  cases room <;> simp [parseValue]

theorem parse_value_blank (room : Nat) (w : Blank) (s : Bytes) :
    parseValue room (w.val ++ s) = parseValue room s := by
  rw [← parse_value_skip, skip_ws_blank, parse_value_skip]

theorem container_loop_skip (room : Nat) (lid : Lid) (rounds : Nat) (s : Bytes)
    (keys : List Bytes) (items : List Jv) :
    containerLoop (parseValue room) lid rounds (skipWs s) keys items =
      containerLoop (parseValue room) lid rounds s keys items := by
  cases rounds with
  | zero => rfl
  | succ rounds =>
      cases lid with
      | brace => simp [containerLoop, parseLabel, parseKey]
      | bracket => simp [containerLoop, parseLabel, parse_value_skip]

/-! ## Where a value begins and ends -/

theorem scalar_head (scalar : Scalar) :
    ∃ c s, scalar.text = c :: s ∧ isWs c = false ∧ c ≠ rbracket := by
  cases scalar with
  | literal name => cases name <;> exact ⟨_, _, rfl, by decide, by decide⟩
  | string chars => exact ⟨quote, _, rfl, by decide, by decide⟩
  | number numeral =>
      rcases whole_head numeral.wholly with ⟨d, tail, whole, digit⟩
      rcases numeral.signed with plain | negative
      · refine ⟨d, tail ++ (numeral.fraction ++ numeral.exponent), ?_, ?_, ?_⟩
        · simp [Scalar.text, Numeral.text, plain, whole]
        · simp only [isDigit] at digit
          simp only [isWs]
          grind
        · simp only [isDigit] at digit
          grind
      · refine ⟨minus, numeral.whole ++ (numeral.fraction ++ numeral.exponent), ?_, ?_, ?_⟩
        · simp [Scalar.text, Numeral.text, negative]
        · decide
        · decide

theorem doc_head (doc : Doc) : ∃ c s, doc.text = c :: s ∧ isWs c = false ∧ c ≠ rbracket := by
  cases doc with
  | leaf scalar => exact scalar_head scalar
  | empty lid blank => cases lid <;> exact ⟨_, _, rfl, by decide, by decide⟩
  | full lid early label last trail => cases lid <;> exact ⟨_, _, rfl, by decide, by decide⟩

/-- A blank and one of the bytes `,`, `}`, `]` end a numeral. -/
theorem number_ends_blank (w : Blank) {c : UInt8} (closing : c = comma ∨ c = rbrace ∨ c = rbracket)
    (s : Bytes) : NumberEnds (w.val ++ c :: s) := by
  intro b head
  rcases w with ⟨_ | ⟨a, w⟩, ws⟩
  · cases head
    rcases closing with rfl | rfl | rfl <;> (unfold Marker; decide)
  · cases head
    have space := ws b (by simp)
    simp only [isWs] at space
    simp only [isDigit, Marker]
    grind

theorem closer_ends (lid : Lid) :
    lid.closer = comma ∨ lid.closer = rbrace ∨ lid.closer = rbracket := by
  cases lid <;> simp [Lid.closer]

theorem closer_solid (lid : Lid) : isWs lid.closer = false := by
  cases lid <;> decide

theorem closer_ne_comma (lid : Lid) : lid.closer ≠ comma := by
  cases lid <;> decide

/-- Nothing but an empty container closes where its first entry could begin. -/
theorem entry_head {lid : Lid} (label : Label lid) (doc : Doc) (s : Bytes) :
    (skipWs (label.text ++ (doc.text ++ s))).head? ≠ some lid.closer := by
  cases label with
  | item lead =>
      rcases doc_head doc with ⟨c, tail, text, solid, other⟩
      rw [Label.text, skip_ws_blank, text, List.cons_append, skip_ws_solid solid]
      simpa [Lid.closer] using other
  | member name lead =>
      have solid : isWs quote = false := by decide
      have other : quote ≠ rbrace := by decide
      simpa [Label.text, Name.text, skip_ws_blank, skip_ws_solid solid, Lid.closer] using other

theorem body_head {lid : Lid} : ∀ (body : Body lid) (label : Label lid) (doc : Doc) (s : Bytes),
    (skipWs (body.text ++ (label.text ++ (doc.text ++ s)))).head? ≠ some lid.closer
  | .none _, label, doc, s => by
      rw [Body.text]
      exact entry_head label doc s
  | .snoc front first value trail, label, doc, s => by
      simp only [Body.text, List.append_assoc]
      exact body_head front first value _

/-! ## Entries -/

def Label.lead : {lid : Lid} → Label lid → Blank
  | _, .item lead => lead
  | _, .member _ lead => lead

/-- What `parse_container` reads in front of an entry's value. -/
theorem read_label {lid : Lid} (label : Label lid) (s : Bytes) (keys : List Bytes) :
    parseLabel lid (label.text ++ s) keys =
      if label.fine keys then some (keys ++ label.keys, label.lead.val ++ s) else none := by
  cases label with
  | item lead => simp [parseLabel, Label.text, Label.fine, Label.keys, Label.lead]
  | member name lead =>
      have openSolid : isWs quote = false := by decide
      have colonSolid : isWs colon = false := by decide
      simp only [parseLabel, parseKey, Label.text, Name.text, List.append_assoc, List.cons_append,
        skip_ws_blank, skip_ws_solid openSolid, parse_string_chars]
      by_cases fine : name.chars.fine = true
      · by_cases seen : name.chars.decode ∈ keys
        · simp [Label.fine, fine, seen]
        · simp [Label.fine, Label.keys, Label.lead, fine, seen, skip_ws_blank,
            skip_ws_solid colonSolid]
      · simp [Label.fine, fine]

/-- The parser reads the document wherever it stands. -/
def Reads (room : Nat) (doc : Doc) : Prop :=
  ∀ rest, NumberEnds rest →
    parseValue room (doc.text ++ rest) = if doc.fine room then some (doc.jv, rest) else none

/-- One round of `parse_container`. -/
theorem read_entry {room : Nat} {doc : Doc} (reads : Reads room doc) {lid : Lid}
    (label : Label lid) (trail : Blank) {c : UInt8}
    (closing : c = comma ∨ c = rbrace ∨ c = rbracket) (rounds : Nat) (s : Bytes)
    (keys : List Bytes) (items : List Jv) :
    containerLoop (parseValue room) lid (rounds + 1)
        (label.text ++ (doc.text ++ (trail.val ++ c :: s))) keys items =
      if label.fine keys && doc.fine room then
        if c = comma then
          containerLoop (parseValue room) lid rounds s (keys ++ label.keys) (items ++ [doc.jv])
        else if c = lid.closer then some (lid.jv (keys ++ label.keys) (items ++ [doc.jv]), s)
        else none
      else none := by
  have solid : isWs c = false := by
    rcases closing with rfl | rfl | rfl <;> decide
  simp only [containerLoop]
  rw [read_label]
  by_cases known : label.fine keys = true
  · simp only [known, if_true, Option.bind_some, Bool.true_and, parse_value_blank]
    rw [reads _ (number_ends_blank trail closing s)]
    by_cases fine : doc.fine room = true
    · simp [fine, skip_ws_blank, skip_ws_solid solid]
    · simp [fine]
  · simp [known]

/-! ## Documents -/

theorem parse_value_solid {c : UInt8} (solid : isWs c = false) (room : Nat) (s : Bytes) :
    parseValue (room + 1) (c :: s) =
      if c = lbrace then parseContainer (parseValue room) .brace s
      else if c = lbracket then parseContainer (parseValue room) .bracket s
      else if c = quote then (parseString (c :: s)).map fun (text, s) => (.str text, s)
      else if trueText <+: c :: s then some (.bool true, (c :: s).drop 4)
      else if falseText <+: c :: s then some (.bool false, (c :: s).drop 5)
      else if nullText <+: c :: s then some (.null, (c :: s).drop 4)
      else if c = minus ∨ isDigit c then parseNumber (c :: s)
      else none := by
  simp only [parseValue, skip_ws_solid solid]

/-- A numeral begins with `-` or a digit. -/
theorem numeral_head (numeral : Numeral) :
    ∃ c s, numeral.text = c :: s ∧ (c = minus ∨ isDigit c = true) := by
  rcases whole_head numeral.wholly with ⟨d, tail, whole, digit⟩
  rcases numeral.signed with plain | negative
  · exact ⟨d, tail ++ (numeral.fraction ++ numeral.exponent), by simp [Numeral.text, plain, whole],
      Or.inr digit⟩
  · exact ⟨minus, numeral.whole ++ (numeral.fraction ++ numeral.exponent),
      by simp [Numeral.text, negative], Or.inl rfl⟩

theorem read_leaf (room : Nat) (scalar : Scalar) : Reads room (.leaf scalar) := by
  intro rest ends
  cases room with
  | zero => simp [parseValue, Doc.fine]
  | succ room =>
      cases scalar with
      | literal name =>
          have others : (letterT ≠ lbrace ∧ letterT ≠ lbracket ∧ letterT ≠ quote) ∧
              (letterF ≠ lbrace ∧ letterF ≠ lbracket ∧ letterF ≠ quote ∧ letterT ≠ letterF) ∧
              (letterN ≠ lbrace ∧ letterN ≠ lbracket ∧ letterN ≠ quote ∧ letterT ≠ letterN ∧
                letterF ≠ letterN) := by decide
          cases name <;>
            simp [Doc.text, Doc.fine, Doc.jv, Scalar.text, Scalar.fine, Scalar.jv, Literal.text,
              Literal.jv, trueText, falseText, nullText] <;>
            rw [parse_value_solid (by decide)] <;>
            simp [others, trueText, falseText, nullText]
      | number numeral =>
          rcases numeral_head numeral with ⟨c, tail, text, first⟩
          have solid : isWs c = false := by
            simp only [isWs, isDigit] at first ⊢
            grind
          have others : c ≠ lbrace ∧ c ≠ lbracket ∧ c ≠ quote ∧ letterT ≠ c ∧ letterF ≠ c ∧
              letterN ≠ c := by
            simp only [isDigit] at first
            grind
          have read := parse_number_numeral numeral ends
          rw [text, List.cons_append] at read
          simp only [Doc.text, Scalar.text, text, List.cons_append, parse_value_solid solid]
          rw [← text] at read
          simp [others, first, read, trueText, falseText, nullText, Doc.fine, Scalar.fine, Doc.jv,
            Scalar.jv]
      | string chars =>
          have others : quote ≠ lbrace ∧ quote ≠ lbracket := by decide
          have read := parse_string_chars chars rest
          simp only [Doc.text, Scalar.text, List.cons_append, List.append_assoc, List.nil_append]
          rw [parse_value_solid (by decide)]
          simp only [others, if_true, if_false, read]
          by_cases fine : chars.fine = true
          · simp [fine, Doc.fine, Scalar.fine, Doc.jv, Scalar.jv]
          · simp [fine, Doc.fine, Scalar.fine]

theorem read_empty (room : Nat) (lid : Lid) (blank : Blank) : Reads room (.empty lid blank) := by
  intro rest ends
  cases room with
  | zero => simp [parseValue, Doc.fine]
  | succ room =>
      have closes : parseContainer (parseValue room) lid (blank.val ++ (lid.closer :: rest)) =
          some (lid.jv [] [], rest) := by
        simp [parseContainer, skip_ws_blank, skip_ws_solid (closer_solid lid)]
      have others : lbracket ≠ lbrace := by decide
      simp only [Doc.text, List.cons_append, List.append_assoc, List.nil_append]
      cases lid with
      | brace =>
          rw [parse_value_solid (by decide)]
          simpa [Doc.fine, Doc.jv, Lid.opener] using closes
      | bracket =>
          rw [parse_value_solid (by decide)]
          simpa [Doc.fine, Doc.jv, Lid.opener, others] using closes

/-- A value that opens a container is what `parse_container` makes of it. -/
theorem parse_value_opener (lid : Lid) (room : Nat) (s : Bytes) :
    parseValue (room + 1) (lid.opener :: s) = parseContainer (parseValue room) lid s := by
  have others : lbracket ≠ lbrace := by decide
  cases lid with
  | brace =>
      rw [parse_value_solid (by decide)]
      simp [Lid.opener]
  | bracket =>
      rw [parse_value_solid (by decide)]
      simp [Lid.opener, others]

theorem body_size_le {lid : Lid} : ∀ body : Body lid, body.size ≤ body.text.length
  | .none _ => by simp [Body.size, Body.text]
  | .snoc front label doc trail => by
      have rest := body_size_le front
      simp only [Body.size, Body.text, List.length_append, List.length_cons, List.length_nil]
      omega

/-- Without a level left nothing is read. -/
theorem doc_fine_zero : ∀ doc : Doc, doc.fine 0 = false
  | .leaf _ => by simp [Doc.fine]
  | .empty _ _ => by simp [Doc.fine]
  | .full _ _ _ last _ => by simp [Doc.fine, doc_fine_zero last]

mutual

/-- `parse_value` of a document. -/
theorem read_doc : ∀ (doc : Doc) (room : Nat), Reads room doc
  | .leaf scalar, room => read_leaf room scalar
  | .empty lid blank, room => read_empty room lid blank
  | .full lid early label last trail, 0 => by
      intro rest ends
      rw [doc_fine_zero]
      simp [parseValue]
  | .full lid early label last trail, room + 1 => by
      intro rest ends
      have text : (Doc.full lid early label last trail).text ++ rest = lid.opener ::
          (early.text ++ (label.text ++ (last.text ++ (trail.val ++ lid.closer :: rest)))) := by
        simp [Doc.text]
      have inside := body_head early label last (trail.val ++ lid.closer :: rest)
      have long : early.size + 1 ≤
          (early.text ++ (label.text ++ (last.text ++ (trail.val ++ lid.closer :: rest)))).length := by
        have early := body_size_le early
        simp only [List.length_append, List.length_cons]
        omega
      rcases Nat.exists_eq_add_of_le long with ⟨spare, length⟩
      rw [text, parse_value_opener, parseContainer, if_neg inside, container_loop_skip, length,
        show early.size + 1 + spare = early.size + (spare + 1) by omega, read_body early room,
        read_entry (read_doc last room) label trail (closer_ends lid)]
      by_cases fine : early.fine room = true
      · simp [fine, Doc.fine, Doc.jv, closer_ne_comma]
      · simp [fine, Doc.fine]

/-- The entries of `parse_container` that a comma follows. -/
theorem read_body {lid : Lid} : ∀ (body : Body lid) (room rounds : Nat) (s : Bytes),
    containerLoop (parseValue room) lid (body.size + rounds) (body.text ++ s) [] [] =
      if body.fine room then containerLoop (parseValue room) lid rounds s body.keys body.items
      else none
  | .none _, room, rounds, s => by simp [Body.size, Body.text, Body.fine, Body.keys, Body.items]
  | .snoc front label doc trail, room, rounds, s => by
      have text : (Body.snoc front label doc trail).text ++ s =
          front.text ++ (label.text ++ (doc.text ++ (trail.val ++ comma :: s))) := by
        simp [Body.text]
      rw [text, Body.size, Nat.add_right_comm, Nat.add_assoc, read_body front room,
        read_entry (read_doc doc room) label trail (Or.inl rfl)]
      by_cases fine : front.fine room = true
      · simp [fine, Body.fine, Body.keys, Body.items]
      · simp [fine, Body.fine]

end

/-- `json_parse` of a document with blanks in front of it. -/
theorem json_parse_doc (lead : Blank) (doc : Doc) :
    jsonParse (lead.val ++ doc.text) = if doc.fine maxDepth then some doc.jv else none := by
  have read := read_doc doc maxDepth [] (fun c head => by simp at head)
  rw [List.append_nil] at read
  rw [jsonParse, parse_value_blank, read]
  by_cases fine : doc.fine maxDepth = true
  · simp [fine, skipWs]
  · simp [fine]

end GridcoreRunner.Json
