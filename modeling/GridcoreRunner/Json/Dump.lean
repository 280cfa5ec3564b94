import GridcoreRunner.Json.Grammar
import GridcoreRunner.Json.NumberText

/-!
# Printing a value

`jv_dump` and `jv_dump_tojson`, which differ in the space behind a comma and a colon. What is
printed of a parsed value is a document again, with the same strings, names and order. It is
read back as the value it was printed from when each number survives: integers below 2^63 in
size always do, and others are printed with ten digits.
-/

namespace GridcoreRunner.Json

set_option autoImplicit false

/-- Whether `(long long)` holds the number as it is. -/
def IsLongLong (d : ℚ) : Prop := -(2 : ℚ) ^ 63 ≤ d ∧ d < (2 : ℚ) ^ 63 ∧ d = ⌊d⌋

instance (d : ℚ) : Decidable (IsLongLong d) := inferInstanceAs (Decidable (_ ∧ _ ∧ _))

/-- The case `J_NUM` of `jv_dump_sep`. -/
def dumpNumber (d : ℚ) : Bytes := if IsLongLong d then Decimal.ofInt ⌊d⌋ else generalText 10 d

def dumpString (s : Bytes) : Bytes := quote :: (sbEsc (cString s) ++ [quote])

mutual

/-- `jv_dump_sep`; a buffer always has its memory. -/
def jvDumpSep (commaText colonText : Bytes) : Jv → Bytes
  | .null => nullText
  | .bool b => if b then trueText else falseText
  | .num d => dumpNumber d
  | .str s => dumpString s
  | .arr items => lbracket :: (dumpItems commaText colonText true items ++ [rbracket])
  | .obj keys items => lbrace :: (dumpMembers commaText colonText true keys items ++ [rbrace])
termination_by structural v => v

def dumpItems (commaText colonText : Bytes) : Bool → List Jv → Bytes
  | _, [] => []
  | first, v :: items =>
      (if first then [] else commaText) ++
        (jvDumpSep commaText colonText v ++ dumpItems commaText colonText false items)
termination_by structural _ items => items

def dumpMembers (commaText colonText : Bytes) : Bool → List Bytes → List Jv → Bytes
  | first, key :: keys, v :: items =>
      (if first then [] else commaText) ++ (dumpString key ++ (colonText ++
        (jvDumpSep commaText colonText v ++ dumpMembers commaText colonText false keys items)))
  | _, _, _ => []
termination_by structural _ _ items => items

end

def jvDump (v : Jv) : Bytes := jvDumpSep [comma] [colon] v

def jvDumpTojson (v : Jv) : Bytes := jvDumpSep [comma, 0x20] [colon, 0x20] v

mutual

/-- The numbers in a value. -/
def Jv.numbers : Jv → List ℚ
  | .null => []
  | .bool _ => []
  | .num d => [d]
  | .str _ => []
  | .arr items => numbersIn items
  | .obj _ items => numbersIn items
termination_by structural v => v

def numbersIn : List Jv → List ℚ
  | [] => []
  | v :: items => v.numbers ++ numbersIn items
termination_by structural items => items

end

/-! ## One number -/

/-- The printed number is read back as it was. -/
def Reprints (d : ℚ) : Prop :=
  inRange (dumpNumber d) = true ∧ (strtod (dumpNumber d)).1 = d

/-- Ten digits are enough for the number, or it is printed as an integer. -/
def Kept (d : ℚ) : Prop :=
  IsLongLong d ∨ nearest (significant 10 d) = d ∧ rangeError (significant 10 d) = false

theorem dump_number_numeral (d : ℚ) : ∃ numeral : Numeral, numeral.text = dumpNumber d ∧
    numeralValue numeral.text = if IsLongLong d then d else significant 10 d := by
  unfold dumpNumber
  by_cases whole : IsLongLong d
  · obtain ⟨numeral, text, value⟩ := of_int_numeral ⌊d⌋
    refine ⟨numeral, by rw [if_pos whole, text], ?_⟩
    rw [if_pos whole, value]
    exact whole.2.2.symm
  · obtain ⟨numeral, text, value⟩ := general_text_numeral (by omega : 1 ≤ 10) d
    exact ⟨numeral, by rw [if_neg whole, text], by rw [if_neg whole, value]⟩

/-- A double in the limits is read back exactly when it is kept. -/
theorem reprints_iff {d : ℚ} (double : IsDouble d) (limits : InLimits d) :
    Reprints d ↔ Kept d := by
  obtain ⟨numeral, text, value⟩ := dump_number_numeral d
  unfold Reprints Kept
  rw [← text]
  by_cases whole : IsLongLong d
  · rw [if_pos whole] at value
    have exact_ := strtod_double double limits value
    exact ⟨fun _ => Or.inl whole, fun _ => ⟨exact_.2, exact_.1⟩⟩
  · rw [if_neg whole] at value
    rw [in_range_iff, strtod_value, value]
    constructor
    · rintro ⟨⟨fits, _⟩, same⟩
      exact Or.inr ⟨same, fits⟩
    · intro either
      rcases either with integer | ⟨same, fits⟩
      · exact absurd integer whole
      · exact ⟨⟨fits, by rw [same]; exact limits⟩, same⟩

/-! ## One string -/

/-- A decoded string is printed as pieces that decode to it. -/
theorem dump_string_pieces {chars : Chars} (fine : chars.fine = true) :
    ∃ printed : Chars, dumpString chars.decode = quote :: (printed.text ++ [quote]) ∧
      printed.decode = chars.decode ∧ printed.fine = true := by
  have free := decode_nul_free chars
  have present : (0 : UInt8) ∉ chars.decode := fun inside => free 0 inside rfl
  obtain ⟨printed, text, decode, printedFine⟩ := escaped_pieces present
  obtain ⟨made, same⟩ := decode_chars fine
  refine ⟨printed, ?_, ?_, printedFine⟩
  · rw [dumpString, c_string_whole free, text]
  · rw [decode, same, cleaned_chars]

/-! ## Entries -/

section Separators

variable (gap : Blank)

/-- The values of a container, in front of its closing byte. -/
def dumpEntries : Lid → List Bytes → List Jv → Bytes
  | .bracket, _, items => dumpItems (comma :: gap.val) (colon :: gap.val) true items
  | .brace, keys, items => dumpMembers (comma :: gap.val) (colon :: gap.val) true keys items

/-- What is printed between a separator and the value. -/
def dumpLabel {lid : Lid} (label : Label lid) : Bytes :=
  match label with
  | .item _ => []
  | .member name _ => dumpString name.chars.decode ++ (colon :: gap.val)

/-- The separator behind what is printed so far. -/
def separator {α : Type} (items : List α) : Bytes := if items.isEmpty then [] else comma :: gap.val

theorem dump_lid (lid : Lid) (keys : List Bytes) (items : List Jv) :
    jvDumpSep (comma :: gap.val) (colon :: gap.val) (lid.jv keys items) =
      lid.opener :: (dumpEntries gap lid keys items ++ [lid.closer]) := by
  cases lid <;> rfl

theorem dump_items_snoc (first : Bool) (items : List Jv) (v : Jv) :
    dumpItems (comma :: gap.val) (colon :: gap.val) first (items ++ [v]) =
      dumpItems (comma :: gap.val) (colon :: gap.val) first items ++
        ((if first && items.isEmpty then [] else comma :: gap.val) ++
          jvDumpSep (comma :: gap.val) (colon :: gap.val) v) := by
  induction items generalizing first with
  | nil => cases first <;> simp [dumpItems]
  | cons w items induction =>
      rw [List.cons_append, dumpItems, induction, dumpItems]
      simp

theorem dump_members_snoc (first : Bool) (keys : List Bytes) (items : List Jv) (key : Bytes)
    (v : Jv) (same : keys.length = items.length) :
    dumpMembers (comma :: gap.val) (colon :: gap.val) first (keys ++ [key]) (items ++ [v]) =
      dumpMembers (comma :: gap.val) (colon :: gap.val) first keys items ++
        ((if first && items.isEmpty then [] else comma :: gap.val) ++ (dumpString key ++
          (colon :: gap.val ++ jvDumpSep (comma :: gap.val) (colon :: gap.val) v))) := by
  induction items generalizing first keys with
  | nil =>
      rw [List.length_eq_zero_iff.mp same]
      cases first <;> simp [dumpMembers]
  | cons w items induction =>
      rcases keys with _ | ⟨k, keys⟩
      · cases same
      · rw [List.cons_append, List.cons_append, dumpMembers,
          induction false keys (Nat.succ.inj same), dumpMembers]
        simp

/-- Names stand beside the values of an object only. -/
def Beside (lid : Lid) (keys : List Bytes) (items : List Jv) : Prop :=
  match lid with
  | .brace => keys.length = items.length
  | .bracket => keys = []

theorem body_beside {lid : Lid} : ∀ body : Body lid, Beside lid body.keys body.items
  | .none .brace => rfl
  | .none .bracket => rfl
  | .snoc front (.item lead) doc trail => by
      have before : front.keys = [] := body_beside front
      simp [Beside, Body.keys, Label.keys, before]
  | .snoc front (.member name lead) doc trail => by
      have before : front.keys.length = front.items.length := body_beside front
      simp [Beside, Body.keys, Label.keys, Body.items, before]

/-- One more entry is printed behind a separator. -/
theorem dump_entries_snoc {lid : Lid} {keys : List Bytes} {items : List Jv} (label : Label lid)
    (v : Jv) (beside : Beside lid keys items) :
    dumpEntries gap lid (keys ++ label.keys) (items ++ [v]) =
      dumpEntries gap lid keys items ++ (separator gap items ++
        (dumpLabel gap label ++ jvDumpSep (comma :: gap.val) (colon :: gap.val) v)) := by
  cases label with
  | item lead =>
      have printed := dump_items_snoc gap true items v
      simp only [dumpEntries, dumpLabel, separator, List.nil_append]
      rw [printed, Bool.true_and]
  | member name lead =>
      have printed := dump_members_snoc gap true keys items name.chars.decode v beside
      simp only [dumpEntries, dumpLabel, separator, Label.keys]
      rw [printed, Bool.true_and, List.append_assoc (dumpString name.chars.decode)]

/-! ## The printed document -/

/-- The label that is printed, the gap behind the comma in front of it. -/
theorem dump_label_label {lid : Lid} (label : Label lid) {seen : List Bytes}
    (fine : label.fine seen = true) (lead : Blank) :
    ∃ printed : Label lid, printed.text = lead.val ++ dumpLabel gap label ∧
      printed.keys = label.keys ∧ printed.fine seen = true := by
  cases label with
  | item blank => exact ⟨.item lead, (List.append_nil _).symm, rfl, rfl⟩
  | member name blank =>
      simp only [Label.fine, Bool.and_eq_true, decide_eq_true_eq] at fine
      obtain ⟨chars, text, decode, charsFine⟩ := dump_string_pieces fine.1
      refine ⟨.member ⟨lead, chars, Blank.none⟩ gap, ?_, ?_, ?_⟩
      · rw [dumpLabel, text]
        simp [Label.text, Name.text, Blank.none]
      · simp only [Label.keys]
        rw [decode]
      · simp only [Label.fine, Bool.and_eq_true, decide_eq_true_eq]
        rw [decode]
        exact ⟨charsFine, fine.2⟩

/-- What is printed of a document is a document, and it is fine and stands for the same value
when all numbers are read back. -/
def DocPrints (doc : Doc) : Prop :=
  ∀ room, doc.fine room = true → ∃ printed : Doc,
    printed.text = jvDumpSep (comma :: gap.val) (colon :: gap.val) doc.jv ∧
      printed.depth ≤ room ∧
      (printed.fine room = true ∧ printed.jv = doc.jv ↔ ∀ d ∈ doc.jv.numbers, Reprints d)

def BodyPrints {lid : Lid} (body : Body lid) : Prop :=
  ∀ room, body.fine room = true → ∃ printed : Body lid,
    printed.text = dumpEntries gap lid body.keys body.items ++
        (if body.items.isEmpty then [] else [comma]) ∧
      printed.keys = body.keys ∧ printed.depth ≤ room ∧
      (printed.fine room = true ∧ printed.items = body.items ↔
        ∀ d ∈ numbersIn body.items, Reprints d)

theorem leaf_prints (scalar : Scalar) : DocPrints gap (.leaf scalar) := by
  intro room fine
  simp only [Doc.fine, Bool.and_eq_true, decide_eq_true_eq] at fine
  cases scalar with
  | literal name =>
      refine ⟨.leaf (.literal name), ?_, fine.1, ?_⟩
      · cases name <;> rfl
      · refine ⟨fun _ => ?_, fun _ => ⟨by simp [Doc.fine, Scalar.fine, fine.1], rfl⟩⟩
        intro d inside
        cases name <;> cases inside
  | string chars =>
      obtain ⟨printed, text, decode, printedFine⟩ := dump_string_pieces fine.2
      refine ⟨.leaf (.string printed), ?_, fine.1, ?_⟩
      · change quote :: Chars.text printed ++ [quote] = dumpString chars.decode
        rw [text]
        rfl
      · refine ⟨fun _ => ?_, fun _ => ⟨?_, ?_⟩⟩
        · intro d inside
          cases inside
        · simp [Doc.fine, Scalar.fine, fine.1, printedFine]
        · simp only [Doc.jv, Scalar.jv]
          rw [decode]
  | number numeral =>
      obtain ⟨printed, text, _⟩ := dump_number_numeral (strtod numeral.text).1
      refine ⟨.leaf (.number printed), text, fine.1, ?_⟩
      have only : (Doc.leaf (.number numeral)).jv.numbers = [(strtod numeral.text).1] := rfl
      rw [only]
      simp only [Doc.fine, Scalar.fine, Doc.jv, Scalar.jv, List.mem_singleton, forall_eq, Reprints,
        Bool.and_eq_true, decide_eq_true_eq, fine.1, true_and, Jv.num.injEq, text]

theorem numbers_in_append (front back : List Jv) :
    numbersIn (front ++ back) = numbersIn front ++ numbersIn back := by
  induction front with
  | nil => rfl
  | cons v front induction => rw [List.cons_append, numbersIn, induction, numbersIn, List.append_assoc]

theorem numbers_lid (lid : Lid) (keys : List Bytes) (items : List Jv) :
    (lid.jv keys items).numbers = numbersIn items := by
  cases lid <;> rfl

theorem lid_jv_inj {lid : Lid} {keys : List Bytes} {items items' : List Jv} :
    lid.jv keys items = lid.jv keys items' ↔ items = items' := by
  cases lid <;> simp [Lid.jv]

/-- The entries so far and one more value: both survive or one does not. -/
theorem entries_survive {items items' : List Jv} {v v' : Jv} {fine fine' : Prop}
    (early : fine ∧ items' = items ↔ ∀ d ∈ numbersIn items, Reprints d)
    (last : fine' ∧ v' = v ↔ ∀ d ∈ v.numbers, Reprints d) :
    (fine ∧ fine') ∧ items' ++ [v'] = items ++ [v] ↔
      ∀ d ∈ numbersIn (items ++ [v]), Reprints d := by
  have single : numbersIn [v] = v.numbers := List.append_nil _
  rw [numbers_in_append, single]
  have split : (∀ d ∈ numbersIn items ++ v.numbers, Reprints d) ↔
      (∀ d ∈ numbersIn items, Reprints d) ∧ ∀ d ∈ v.numbers, Reprints d := by
    simp only [List.mem_append, or_imp, forall_and]
  rw [split, ← early, ← last]
  constructor
  · rintro ⟨⟨front, back⟩, same⟩
    have parts := List.append_inj' same rfl
    exact ⟨⟨front, parts.1⟩, back, List.singleton_injective parts.2⟩
  · rintro ⟨⟨front, same⟩, back, same'⟩
    exact ⟨⟨front, back⟩, by rw [same, same']⟩

mutual

theorem doc_prints : ∀ doc : Doc, DocPrints gap doc
  | .leaf scalar => leaf_prints gap scalar
  | .empty lid blank => by
      intro room fine
      refine ⟨.empty lid Blank.none, ?_, of_decide_eq_true fine, ?_⟩
      · cases lid <;> rfl
      · refine ⟨fun _ => ?_, fun _ => ⟨fine, rfl⟩⟩
        intro d inside
        cases lid <;> cases inside
  | .full lid early label last trail => by
      intro room fine
      simp only [Doc.fine, Bool.and_eq_true] at fine
      obtain ⟨⟨earlyFine, labelFine⟩, lastFine⟩ := fine
      obtain ⟨front, frontText, frontKeys, frontDepth, frontSurvives⟩ :=
        body_prints early (room - 1) earlyFine
      obtain ⟨back, backText, backDepth, backSurvives⟩ := doc_prints last (room - 1) lastFine
      obtain ⟨name, nameText, nameKeys, nameFine⟩ := dump_label_label gap label labelFine
        (if early.items.isEmpty then Blank.none else gap)
      refine ⟨.full lid front name back Blank.none, ?_, ?_, ?_⟩
      · rw [Doc.jv, dump_lid, dump_entries_snoc gap label last.jv (body_beside early)]
        simp only [Doc.text, frontText, backText, nameText, separator]
        cases early.items.isEmpty <;> simp [Blank.none]
      · have own := depth_pos back
        rw [Doc.depth]
        omega
      · simp only [Doc.fine, Doc.jv, numbers_lid, Bool.and_eq_true]
        rw [frontKeys, nameKeys, lid_jv_inj, ← entries_survive frontSurvives backSurvives]
        simp only [nameFine, and_true]

theorem body_prints : ∀ {lid : Lid} (body : Body lid), BodyPrints gap body
  | _, .none lid => by
      intro room _
      refine ⟨.none lid, ?_, rfl, Nat.zero_le _, ?_⟩
      · cases lid <;> rfl
      · refine ⟨fun _ => ?_, fun _ => ⟨rfl, rfl⟩⟩
        intro d inside
        cases inside
  | lid, .snoc front label doc trail => by
      intro room fine
      simp only [Body.fine, Bool.and_eq_true] at fine
      obtain ⟨⟨frontFine, labelFine⟩, docFine⟩ := fine
      obtain ⟨early, earlyText, earlyKeys, earlyDepth, earlySurvives⟩ :=
        body_prints front room frontFine
      obtain ⟨last, lastText, lastDepth, lastSurvives⟩ := doc_prints doc room docFine
      obtain ⟨name, nameText, nameKeys, nameFine⟩ := dump_label_label gap label labelFine
        (if front.items.isEmpty then Blank.none else gap)
      refine ⟨.snoc early name last Blank.none, ?_, ?_, Nat.max_le.mpr ⟨earlyDepth, lastDepth⟩, ?_⟩
      · rw [Body.keys, Body.items, dump_entries_snoc gap label doc.jv (body_beside front)]
        simp only [Body.text, earlyText, lastText, nameText, separator]
        cases front.items.isEmpty <;> simp [Blank.none]
      · rw [Body.keys, Body.keys, earlyKeys, nameKeys]
      · simp only [Body.fine, Body.items, Bool.and_eq_true]
        rw [earlyKeys, ← entries_survive earlySurvives lastSurvives]
        simp only [nameFine, and_true]

end

/-- What is printed of a parsed value is read back as that value exactly when all its numbers
are. -/
theorem dump_reads {s : Bytes} {v : Jv} (parsed : jsonParse s = some v) :
    jsonParse (jvDumpSep (comma :: gap.val) (colon :: gap.val) v) = some v ↔
      ∀ d ∈ v.numbers, Reprints d := by
  obtain ⟨_, _, doc, _, fine, value⟩ := (json_parse_iff s v).mp parsed
  obtain ⟨printed, text, _, survives⟩ := doc_prints gap doc maxDepth fine
  have read := json_parse_text Blank.none Blank.none printed
  have plain : Blank.none.val ++ (printed.text ++ Blank.none.val) = printed.text := by
    simp [Blank.none]
  rw [plain, text] at read
  rw [value, read, ← survives]
  by_cases printedFine : printed.fine maxDepth = true
  · rw [if_pos printedFine, Option.some.injEq]
    exact ⟨fun same => ⟨printedFine, same⟩, And.right⟩
  · rw [if_neg printedFine]
    constructor
    · intro never
      cases never
    · intro both
      exact absurd both.1 printedFine

end Separators

/-! ## The numbers of a parsed value -/

mutual

theorem doc_numbers : ∀ (doc : Doc) (room : Nat), doc.fine room = true →
    ∀ d ∈ doc.jv.numbers, IsDouble d ∧ InLimits d
  | .leaf (.literal name), room, fine => by
      intro d inside
      cases name <;> cases inside
  | .leaf (.string chars), room, fine => by
      intro d inside
      cases inside
  | .leaf (.number numeral), room, fine => by
      intro d inside
      simp only [Doc.fine, Scalar.fine, Bool.and_eq_true] at fine
      have only : (Doc.leaf (.number numeral)).jv.numbers = [(strtod numeral.text).1] := rfl
      rw [only, List.mem_singleton] at inside
      rw [inside, strtod_value]
      exact ⟨nearest_double _, ((in_range_iff _).mp fine.2).2⟩
  | .empty lid blank, room, fine => by
      intro d inside
      cases lid <;> cases inside
  | .full lid early label last trail, room, fine => by
      intro d inside
      simp only [Doc.fine, Bool.and_eq_true] at fine
      have single : numbersIn [last.jv] = last.jv.numbers := List.append_nil _
      rw [Doc.jv, numbers_lid, numbers_in_append, single, List.mem_append] at inside
      rcases inside with front | back
      · exact body_numbers early (room - 1) fine.1.1 d front
      · exact doc_numbers last (room - 1) fine.2 d back

theorem body_numbers : ∀ {lid : Lid} (body : Body lid) (room : Nat), body.fine room = true →
    ∀ d ∈ numbersIn body.items, IsDouble d ∧ InLimits d
  | _, .none _, room, fine => by
      intro d inside
      cases inside
  | _, .snoc front label doc trail, room, fine => by
      intro d inside
      simp only [Body.fine, Bool.and_eq_true] at fine
      have single : numbersIn [doc.jv] = doc.jv.numbers := List.append_nil _
      rw [Body.items, numbers_in_append, single, List.mem_append] at inside
      rcases inside with early | last
      · exact body_numbers front room fine.1.1 d early
      · exact doc_numbers doc room fine.2 d last

end

theorem blank_space : ∀ c ∈ ([0x20] : Bytes), isWs c = true := by
  intro c inside
  rw [List.mem_singleton.mp inside]
  rfl

/-- Both dumps of a parsed value parse to the value itself exactly when each of its numbers is
printed as an integer or is the double nearest to its first ten digits, without `ERANGE`. -/
theorem dump_round_trip (s : Bytes) (v : Jv) (parsed : jsonParse s = some v) :
    (jsonParse (jvDump v) = some v ∧ jsonParse (jvDumpTojson v) = some v) ↔
      ∀ d ∈ v.numbers, Kept d := by
  obtain ⟨_, _, doc, _, fine, value⟩ := (json_parse_iff s v).mp parsed
  have kept : (∀ d ∈ v.numbers, Reprints d) ↔ ∀ d ∈ v.numbers, Kept d := by
    have doubles := doc_numbers doc maxDepth fine
    rw [← value] at doubles
    constructor
    · intro all d inside
      exact (reprints_iff (doubles d inside).1 (doubles d inside).2).mp (all d inside)
    · intro all d inside
      exact (reprints_iff (doubles d inside).1 (doubles d inside).2).mpr (all d inside)
  have wire := dump_reads Blank.none parsed
  have spaced := dump_reads ⟨[0x20], blank_space⟩ parsed
  rw [← kept]
  exact ⟨fun both => wire.mp both.1, fun all => ⟨wire.mpr all, spaced.mpr all⟩⟩

theorem seven_numeral : ∃ numeral : Numeral, numeral.text = [0x37] := by
  have digit : Digits [0x37] := ⟨List.cons_ne_nil _ _, List.forall_mem_singleton.mpr rfl⟩
  have whole : Whole [0x37] := Or.inr ⟨digit, by decide⟩
  exact ⟨⟨[], [0x37], [], [], Or.inl rfl, whole, Or.inl rfl, Or.inl rfl⟩, rfl⟩

/-- `{"a":[true,7]}`, where the numeral is `7`. -/
def smallDoc (numeral : Numeral) : Doc :=
  .full .brace (.none _) (.member ⟨Blank.none, [.raw 0x61 (by decide)], Blank.none⟩ Blank.none)
    (.full .bracket (.snoc (.none _) (.item Blank.none) (.leaf (.literal .true)) Blank.none)
      (.item Blank.none) (.leaf (.number numeral)) Blank.none) Blank.none

/-- `{"a":[true,7]}` survives both dumps. -/
theorem object_round_trip :
    jsonParse (jvDump (.obj [[0x61]] [.arr [.bool true, .num 7]])) =
        some (.obj [[0x61]] [.arr [.bool true, .num 7]]) ∧
      jsonParse (jvDumpTojson (.obj [[0x61]] [.arr [.bool true, .num 7]])) =
        some (.obj [[0x61]] [.arr [.bool true, .num 7]]) := by
  obtain ⟨numeral, text⟩ := seven_numeral
  have seven : (strtod numeral.text).1 = 7 := by
    rw [text]
    decide +kernel
  have range : inRange numeral.text = true := by
    rw [text]
    decide +kernel
  have fine : (smallDoc numeral).fine maxDepth = true := by
    have key : Chars.fine [.raw 0x61 (by decide)] = true := by decide +kernel
    simp [smallDoc, Doc.fine, Body.fine, Scalar.fine, Label.fine, range, key, maxDepth, Body.keys]
  have parsed : jsonParse (smallDoc numeral).text =
      some (.obj [[0x61]] [.arr [.bool true, .num 7]]) := by
    refine (json_parse_iff _ _).mpr ⟨Blank.none, Blank.none, smallDoc numeral, ?_, fine, ?_⟩
    · exact (List.append_nil _).symm
    · rw [← seven]
      rfl
  apply (dump_round_trip _ _ parsed).mpr
  intro d inside
  rw [List.mem_singleton.mp inside]
  exact Or.inl (by decide +kernel)

/-- `1.0000000004656612873077392578125`, the double `1 + 2^-31`. -/
def longFraction : Bytes :=
  [one, dot, 0x30, 0x30, 0x30, 0x30, 0x30, 0x30, 0x30, 0x30, 0x30, 0x34, 0x36, 0x35, 0x36, 0x36,
    0x31, 0x32, 0x38, 0x37, 0x33, 0x30, 0x37, 0x37, 0x33, 0x39, 0x32, 0x35, 0x37, 0x38, 0x31, 0x32,
    0x35]

theorem long_fraction_value : Nonempty (Printed longFraction (1 + 1 / 2 ^ 31)) := by
  have digits : ∀ c ∈ longFraction.drop 2, isDigit c = true := by
    rw [← List.all_eq_true]
    rfl
  have whole : Whole [one] := by
    refine Or.inr ⟨⟨List.cons_ne_nil _ _, ?_⟩, by decide⟩
    intro c inside
    rw [List.mem_singleton.mp inside]
    rfl
  refine ⟨[one], longFraction.drop 2, [], 0, rfl, whole, digits, .none, Or.inl rfl, ?_⟩
  have read : decimal ([one] ++ longFraction.drop 2) = 10000000004656612873077392578125 := rfl
  have length : (longFraction.drop 2).length = 31 := rfl
  rw [read, length]
  norm_num

theorem long_fraction_short : significant 10 (1 + 1 / 2 ^ 31) = 1 := by
  have log : Int.log 10 (1 + 1 / 2 ^ 31 : ℚ) = 0 := by
    rw [Int.log_of_one_le_right 10 (by norm_num)]
    have floor : ⌊(1 + 1 / 2 ^ 31 : ℚ)⌋₊ = 1 := by
      rw [Nat.floor_eq_iff (by norm_num)]
      norm_num
    rw [floor, Nat.log_one_right]
    rfl
  have scaled : nearestInt (1000000000 * (1 + 1 / 2 ^ 31)) = 1000000000 := by
    have floor : ⌊(1000000000 * (1 + 1 / 2 ^ 31) : ℚ)⌋ = 1000000000 := by
      rw [Int.floor_eq_iff]
      norm_num
    unfold nearestInt
    rw [floor, if_pos (by norm_num)]
  have nonneg : (0 : ℚ) ≤ 1 + 1 / 2 ^ 31 := by positivity
  unfold significant
  rw [if_neg (not_lt.mpr nonneg), abs_of_nonneg nonneg, log, round_to_nearest]
  have unit : (1 + 1 / 2 ^ 31 : ℚ) / (10 : ℚ) ^ ((0 : ℤ) - ((10 : ℕ) - 1)) =
      1000000000 * (1 + 1 / 2 ^ 31) := by norm_num
  rw [unit, scaled]
  norm_num

/-- Ten digits lose what the fraction holds behind them. -/
theorem long_fraction_lost :
    jsonParse longFraction = some (.num (1 + 1 / 2 ^ 31)) ∧
      jsonParse (jvDump (.num (1 + 1 / 2 ^ 31))) ≠ some (.num (1 + 1 / 2 ^ 31)) ∧
      jsonParse (jvDumpTojson (.num (1 + 1 / 2 ^ 31))) ≠ some (.num (1 + 1 / 2 ^ 31)) := by
  have double : IsDouble (1 + 1 / 2 ^ 31) := ⟨2 ^ 31 + 1, -31, by norm_num, by norm_num, by omega⟩
  have limits : InLimits (1 + 1 / 2 ^ 31) := by
    unfold InLimits doubleLimit
    have big : (1 : ℚ) ≤ 2 ^ 972 := one_le_pow₀ (by norm_num)
    generalize (2 : ℚ) ^ 972 = power at big ⊢
    constructor <;> linarith
  obtain ⟨printed⟩ := long_fraction_value
  obtain ⟨numeral, text, value⟩ := printed.numeral false
  rw [if_neg Bool.false_ne_true, one_mul] at value
  have read := strtod_double double limits value
  have parsed : jsonParse longFraction = some (.num (1 + 1 / 2 ^ 31)) := by
    apply (json_parse_iff _ _).mpr
    refine ⟨Blank.none, Blank.none, .leaf (.number numeral), ?_, ?_, ?_⟩
    · rw [Doc.text, Scalar.text, text]
      rfl
    · simp only [Doc.fine, Scalar.fine, read.2, maxDepth]
      rfl
    · rw [Doc.jv, Scalar.jv, read.1]
  have lost : ¬Reprints (1 + 1 / 2 ^ 31) := by
    rw [reprints_iff double limits]
    intro kept
    rcases kept with ⟨_, _, whole⟩ | ⟨same, _⟩
    · have floor : ⌊(1 + 1 / 2 ^ 31 : ℚ)⌋ = 1 := by
        rw [Int.floor_eq_iff]
        norm_num
      rw [floor] at whole
      norm_num at whole
    · have one' : IsDouble 1 := ⟨1, 0, by norm_num, by norm_num, by omega⟩
      rw [long_fraction_short, nearest_of_double one'] at same
      norm_num at same
  have only : (Jv.num (1 + 1 / 2 ^ 31)).numbers = [1 + 1 / 2 ^ 31] := rfl
  refine ⟨parsed, ?_, ?_⟩
  · intro same
    have wire := dump_reads Blank.none parsed
    exact lost (wire.mp same _ (by rw [only]; exact List.mem_singleton_self _))
  · intro same
    have space := dump_reads ⟨[0x20], blank_space⟩ parsed
    exact lost (space.mp same _ (by rw [only]; exact List.mem_singleton_self _))

end GridcoreRunner.Json
