import GridcoreRunner.Json.Build
import GridcoreRunner.Json.Clean
import GridcoreRunner.Template.Calls

/-!
# The items of recovered calls

Each item is a JSON object whose strings hold the name and the arguments of its call, and the
items behind each other, between brackets, are the array of these objects.
-/

namespace GridcoreRunner.Template

set_option autoImplicit false

open GridcoreRunner.Json GridcoreRunner.Compaction

/-! ## What is written -/

@[simp] theorem written_append (s t : Bytes) : written (s ++ t) = written s ++ written t :=
  List.map_append

/-- The buffer takes what stands in front of a failure. -/
theorem written_bytes_append (s : Bytes) (w : Written) :
    Written.bytes (written s ++ w) = s ++ Written.bytes w := by
  induction s with
  | nil => rfl
  | cons c s induction => exact congrArg (c :: ·) induction

theorem written_bytes (s : Bytes) : Written.bytes (written s) = s := by
  have all := written_bytes_append s []
  rw [List.append_nil] at all
  exact all.trans (List.append_nil s)

/-! ## One item -/

def idKey : Bytes := [0x69, 0x64]
def callId : Bytes := [0x63, 0x61, 0x6c, 0x6c, 0x5f]
def typeKey : Bytes := [0x74, 0x79, 0x70, 0x65]
def functionKey : Bytes := [0x66, 0x75, 0x6e, 0x63, 0x74, 0x69, 0x6f, 0x6e]
def nameKey : Bytes := [0x6e, 0x61, 0x6d, 0x65]
def argumentsKey : Bytes := [0x61, 0x72, 0x67, 0x75, 0x6d, 0x65, 0x6e, 0x74, 0x73]

/-- The object of a call: an id, a type, and a function with a name and arguments. -/
def callValue (index : Nat) (name arguments : Bytes) : Jv :=
  .obj [idKey, typeKey, functionKey] [.str (callId ++ Decimal.ofNat index), .str functionKey,
    .obj [nameKey, argumentsKey] [.str name, .str arguments]]

/-- What is written for the arguments stands for these bytes between its quotes. -/
def Call.Spells (call : Call) (arguments : Bytes) : Prop :=
  ∃ text, call.arguments = written text ∧ Pieces text arguments

theorem Call.Spells.unique {call : Call} {arguments arguments' : Bytes}
    (spells : call.Spells arguments) (spells' : call.Spells arguments') :
    arguments' = arguments := by
  obtain ⟨text, same, pieces⟩ := spells
  obtain ⟨text', same', pieces'⟩ := spells'
  rw [same] at same'
  have texts := congrArg Written.bytes same'
  rw [written_bytes, written_bytes] at texts
  rw [← texts] at pieces'
  exact pieces.unique pieces'

/-- Nothing of the call fails the buffer. -/
def Call.Whole (call : Call) : Prop :=
  (∃ name, call.name = some name ∧ NulFree name) ∧ ∃ arguments, call.Spells arguments

/-- The object is the one of the call. -/
def IsItem (index : Nat) (call : Call) (item : Jv) : Prop :=
  ∃ name arguments, call.name = some name ∧ call.Spells arguments ∧
    item = callValue index (cleaned name) arguments

theorem word_pieces {s : Bytes} (raw : ∀ c ∈ s, PlainByte c ∧ StandsRaw c) : Pieces s s :=
  (clean_plain fun c inside => (raw c inside).1).raw_pieces fun c inside => (raw c inside).2

theorem index_pieces (index : Nat) :
    Pieces (callId ++ Decimal.ofNat index) (callId ++ Decimal.ofNat index) := by
  apply word_pieces
  intro c inside
  rcases List.mem_append.mp inside with word | digit
  · have all : ∀ d ∈ callId, PlainByte d ∧ StandsRaw d := by decide +kernel
    exact all c word
  · have range := Decimal.of_nat_digit digit
    simp only [Decimal.isDigit, Bool.and_eq_true, decide_eq_true_eq] at range
    simp only [PlainByte, StandsRaw, quote, backslash]
    grind

theorem item_fine {key : Chars} {seen : List Bytes} (fine : key.fine = true)
    (fresh : key.decode ∉ seen) : (bareLabel key).fine seen = true := by
  simp [bareLabel, Label.fine, fine, fresh]

/-- The item is a document of three levels. -/
theorem call_item_doc (index : Nat) {call : Call} (whole : call.Whole) : ∃ doc : Doc,
    callItem index call = written doc.text ∧ IsItem index call doc.jv ∧
      doc.fine (maxDepth - 1) = true := by
  obtain ⟨⟨name, named, free⟩, arguments, spells⟩ := whole
  obtain ⟨idChars, idText, idDecode, idFine⟩ :=
    word_pieces (s := idKey) (by decide +kernel)
  obtain ⟨typeChars, typeText, typeDecode, typeFine⟩ :=
    word_pieces (s := typeKey) (by decide +kernel)
  obtain ⟨fnChars, fnText, fnDecode, fnFine⟩ :=
    word_pieces (s := functionKey) (by decide +kernel)
  obtain ⟨nameChars, nameText, nameDecode, nameFine⟩ :=
    word_pieces (s := nameKey) (by decide +kernel)
  obtain ⟨argChars, argText, argDecode, argFine⟩ :=
    word_pieces (s := argumentsKey) (by decide +kernel)
  obtain ⟨callChars, callText, callDecode, callFine⟩ := index_pieces index
  obtain ⟨calleeChars, calleeText, calleeDecode, calleeFine⟩ := escaped_pieces free.absent
  obtain ⟨argumentsText, spelled, chars, text, decode, fine⟩ := spells
  let inner : Doc := .full .brace
    (.snoc (.none .brace) (bareLabel nameChars) (.leaf (.string calleeChars)) Blank.none)
    (bareLabel argChars) (.leaf (.string chars)) Blank.none
  let front : Body .brace := .snoc
    (.snoc (.none .brace) (bareLabel idChars) (.leaf (.string callChars)) Blank.none)
    (bareLabel typeChars) (.leaf (.string fnChars)) Blank.none
  refine ⟨.full .brace front (bareLabel fnChars) inner Blank.none, ?_, ?_, ?_⟩
  · rw [callItem, named, spelled, escaped, ← written_append, ← written_append, ← written_append,
      ← written_append]
    simp only [inner, front, Doc.text, Body.text, Scalar.text, bare_label_text, idText, typeText,
      fnText, nameText, argText, callText, calleeText, text, Blank.none]
    simp [idKey, callId, typeKey, functionKey, nameKey, argumentsKey, itemOpen, itemName,
      itemArguments, itemClose, Lid.opener, Lid.closer]
  · refine ⟨name, arguments, named, ⟨argumentsText, spelled, chars, text, decode, fine⟩, ?_⟩
    simp only [inner, front, Doc.jv, Body.keys, Body.items, Scalar.jv, bare_label_keys, idDecode,
      typeDecode, fnDecode, nameDecode, argDecode, callDecode, calleeDecode, decode]
    rfl
  · have fresh : nameChars.decode ∉ ([] : List Bytes) := List.not_mem_nil
    have idFresh : idChars.decode ∉ ([] : List Bytes) := List.not_mem_nil
    have argFresh : argChars.decode ∉ [nameChars.decode] := by
      rw [argDecode, nameDecode]
      decide
    have typeFresh : typeChars.decode ∉ [idChars.decode] := by
      rw [typeDecode, idDecode]
      decide
    have fnFresh : fnChars.decode ∉ [idChars.decode, typeChars.decode] := by
      rw [fnDecode, idDecode, typeDecode]
      decide
    simp [inner, front, Doc.fine, Body.fine, Body.keys, Scalar.fine, item_fine, maxDepth, nameFine,
      idFine, argFine, typeFine, fnFine, callFine, calleeFine, fine, fresh, idFresh, argFresh,
      typeFresh, fnFresh]

/-! ## All items -/

theorem emitted_append (scanner : Scanner UInt8 Call (Option UInt8)) (count : Nat)
    (front back : List Call) : scanner.emitted count (front ++ back) =
      scanner.emitted count front ++ scanner.emitted (count + front.length) back := by
  induction front generalizing count with
  | nil => rfl
  | cons first front induction =>
      have shift : count + 1 + front.length = count + (first :: front).length := by
        rw [List.length_cons]
        omega
      rw [List.cons_append, Scanner.emitted, induction, Scanner.emitted, List.append_assoc, shift]

theorem emitted_snoc (scanner : Scanner UInt8 Call (Option UInt8)) (count : Nat) (calls : List Call)
    (call : Call) : scanner.emitted count (calls ++ [call]) =
      scanner.emitted count calls ++ scanner.emit (count + calls.length) call := by
  rw [emitted_append, Scanner.emitted, Scanner.emitted, List.append_nil]

/-- The objects stand beside their calls. -/
def AreItems (calls : List Call) (items : List Jv) : Prop :=
  items.length = calls.length ∧ ∀ (index : Nat) (call : Call) (item : Jv),
    calls[index]? = some call → items[index]? = some item → IsItem index call item

theorem AreItems.snoc {calls : List Call} {items : List Jv} {call : Call} {item : Jv}
    (are : AreItems calls items) (is_ : IsItem calls.length call item) :
    AreItems (calls ++ [call]) (items ++ [item]) := by
  obtain ⟨same, all⟩ := are
  refine ⟨by rw [List.length_append, List.length_append, same]; rfl, ?_⟩
  intro index other value atCalls atItems
  by_cases before : index < calls.length
  · rw [List.getElem?_append_left before] at atCalls
    rw [List.getElem?_append_left (by omega)] at atItems
    exact all index other value atCalls atItems
  · rw [List.getElem?_append_right (by omega)] at atCalls atItems
    have here : index = calls.length := by
      have bound := (List.getElem?_eq_some_iff.mp atCalls).1
      rw [List.length_singleton] at bound
      omega
    rw [here, Nat.sub_self, List.getElem?_cons_zero, Option.some.injEq] at atCalls
    rw [here, same, Nat.sub_self, List.getElem?_cons_zero, Option.some.injEq] at atItems
    rw [here, ← atCalls, ← atItems]
    exact is_

/-- The items with a comma behind each are the front of an array. -/
theorem items_body (scanner : Scanner UInt8 Call (Option UInt8)) (emits : scanner.emit = emitItem)
    (calls : List Call) (whole : ∀ call ∈ calls, call.Whole) : ∃ body : Body .bracket,
      scanner.emitted 0 calls ++ written (if calls = [] then [] else [comma]) =
        written body.text ∧
      AreItems calls body.items ∧ body.fine (maxDepth - 1) = true := by
  induction calls using List.reverseRecOn with
  | nil =>
      refine ⟨.none .bracket, rfl, ⟨rfl, ?_⟩, rfl⟩
      intro index call item never
      cases never
  | append_singleton calls call induction =>
      obtain ⟨body, text, items, fine⟩ := induction fun other inside =>
        whole other (List.mem_append_left _ inside)
      obtain ⟨doc, docText, value, docFine⟩ :=
        call_item_doc calls.length (whole call (List.mem_append_right _ List.mem_cons_self))
      refine ⟨.snoc body (.item Blank.none) doc Blank.none, ?_, items.snoc value, ?_⟩
      · have some_ : calls ++ [call] ≠ [] := List.append_ne_nil_of_right_ne_nil _ (List.cons_ne_nil _ _)
        rw [emitted_snoc, emits, emitItem, if_neg some_, Nat.zero_add, docText, Body.text,
          written_append, ← text]
        by_cases none_ : calls = [] <;> simp [none_, Label.text, Blank.none]
      · simp [Body.fine, fine, docFine, Label.fine]

/-- The items between brackets are an array of the calls' objects. -/
theorem items_array (scanner : Scanner UInt8 Call (Option UInt8)) (emits : scanner.emit = emitItem)
    (calls : List Call) (whole : ∀ call ∈ calls, call.Whole) :
    ∃ added items, scanner.emitted 0 calls = written added ∧
      jsonParse (lbracket :: (added ++ [rbracket])) = some (.arr items) ∧ AreItems calls items := by
  have parse : ∀ doc : Doc, doc.fine maxDepth = true → jsonParse doc.text = some doc.jv := by
    intro doc fine
    have read := json_parse_doc Blank.none doc
    rwa [Blank.none, List.nil_append, if_pos fine] at read
  rcases List.eq_nil_or_concat calls with none_ | ⟨front, call, split⟩
  · refine ⟨[], [], ?_, ?_, ?_⟩
    · rw [none_]
      rfl
    · exact parse (.empty .bracket Blank.none) rfl
    · rw [none_]
      exact ⟨rfl, (fun index call item never => by cases never)⟩
  · rw [List.concat_eq_append] at split
    rw [split] at whole ⊢
    obtain ⟨body, text, items, fine⟩ := items_body scanner emits front fun other inside =>
      whole other (List.mem_append_left _ inside)
    obtain ⟨doc, docText, value, docFine⟩ :=
      call_item_doc front.length (whole call (List.mem_append_right _ List.mem_cons_self))
    have all : (Doc.full .bracket body (.item Blank.none) doc Blank.none).fine maxDepth = true := by
      simp [Doc.fine, fine, docFine, Label.fine]
    refine ⟨body.text ++ doc.text, body.items ++ [doc.jv], ?_, ?_, items.snoc value⟩
    · rw [emitted_snoc, emits, emitItem, Nat.zero_add, docText, written_append, ← text]
      by_cases none_ : front = [] <;> simp [none_]
    · have spelled : (Doc.full .bracket body (.item Blank.none) doc Blank.none).text =
          lbracket :: (body.text ++ doc.text ++ [rbracket]) := by
        simp [Doc.text, Label.text, Blank.none, Lid.opener, Lid.closer]
      rw [← spelled, parse _ all]
      rfl

end GridcoreRunner.Template
