import GridcoreRunner.Json.Stuck
import GridcoreRunner.Template.Recovery

/-!
# The arguments of recovered calls

What stands in the arguments of an item is the text of a JSON object where the names and the
numbers of the content allow it.
-/

namespace GridcoreRunner.Template

set_option autoImplicit false

open GridcoreRunner.Json GridcoreRunner.Compaction

/-- Well-formed text that spells a JSON object. -/
def ObjectText (text : Bytes) : Prop :=
  Utf8.wellFormed text = true ∧ ∃ doc : Doc, doc.text = text ∧ doc.isObject = true

def IsNumeral (digits : Bytes) : Prop := ∃ numeral : Numeral, numeral.text = digits

/-! ## Native arguments -/

theorem key_clean {key : Bytes} (free : NulFree key) :
    Clean (quote :: (sbEsc key ++ [quote, colon])) := by
  have tail : Clean [quote, colon] := (clean_nil.cons (by decide)).cons (by decide)
  exact ((escaped_clean free).append tail).cons (by decide)

theorem native_label_clean {lid : Lid} {label : NativeLabel lid} (free : NulFree label.spelling) :
    Clean label.json := by
  cases label with
  | item => exact clean_nil
  | member key => exact key_clean (free.sublist (List.subset_append_left _ _))

theorem run_clean {digits : Bytes} (numeric : ∀ c ∈ digits, isNumberByte c = true)
    (free : NulFree digits) : Clean digits := by
  apply clean_plain
  intro c inside
  refine ⟨?_, free c inside⟩
  have number := numeric c inside
  simp only [isNumberByte, isDigit, Bool.or_eq_true, Bool.and_eq_true, beq_iff_eq,
    decide_eq_true_eq] at number
  rcases number with ((((((rfl | rfl) | rfl) | rfl) | rfl) | rfl) | ⟨_, low⟩)
  all_goals first | decide | grind

mutual

/-- What is written for a value survives a string. -/
theorem native_json_clean : ∀ value : Native, NulFree value.spelling → Clean value.json
  | .text s _, free => by
      apply quoted_clean
      apply escaped_clean
      apply free.sublist
      intro c inside
      exact List.mem_append_right _ (List.mem_append_left _ inside)
  | .word name, _ => literal_clean name
  | .run digits _ numeric, free => run_clean numeric free
  | .full lid entries, free => by
      have inner := entries_json_clean entries (free.sublist fun c inside =>
        List.mem_cons_of_mem _ (List.mem_append_left _ inside))
      exact (inner.append (clean_nil.cons (closer_plain lid))).cons (opener_plain lid)

theorem entries_json_clean : ∀ {lid : Lid} (entries : Entries lid), NulFree entries.spelling →
    Clean entries.json
  | _, .none _, _ => clean_nil
  | _, .snoc front label value, free => by
      have early := entries_json_clean front (free.sublist (List.subset_append_left _ _))
      have labelled : Clean label.json := by
        apply native_label_clean
        apply free.sublist
        intro c inside
        exact List.mem_append_right _ (List.mem_append_right _ (List.mem_append_left _ inside))
      have valued : Clean value.json := by
        apply native_json_clean value
        apply free.sublist
        intro c inside
        exact List.mem_append_right _ (List.mem_append_right _ (List.mem_append_right _ inside))
      exact early.append (separator_clean.append (labelled.append valued))

end

theorem native_label_doc {lid : Lid} (label : NativeLabel lid) (free : NulFree label.spelling) :
    ∃ named : Label lid, named.text = label.json := by
  cases label with
  | item => exact ⟨bareItem, rfl⟩
  | member key =>
      obtain ⟨chars, text, _⟩ := pieces_escaped (free.sublist (List.subset_append_left _ _))
      exact ⟨bareLabel chars, by rw [bare_label_text, text]; rfl⟩

mutual

/-- What is written for a value is a document when its runs are numerals. -/
theorem native_doc : ∀ (value : Native) (room : Nat), value.Fits room → NulFree value.spelling →
    (∀ run ∈ value.runs, IsNumeral run) →
    ∃ doc : Doc, doc.text = value.json ∧ doc.depth ≤ room + 1
  | .text s _, room, _, free, _ => by
      obtain ⟨chars, text, _⟩ := pieces_escaped (s := s) (free.sublist fun c inside =>
        List.mem_append_right _ (List.mem_append_left _ inside))
      refine ⟨.leaf (.string chars), ?_, Nat.le_add_left 1 room⟩
      rw [Doc.text, Scalar.text, text]
      rfl
  | .word name, room, _, _, _ => ⟨.leaf (.literal name), rfl, Nat.le_add_left 1 room⟩
  | .run digits _ _, room, _, _, numerals => by
      obtain ⟨numeral, text⟩ := numerals digits List.mem_cons_self
      exact ⟨.leaf (.number numeral), text, Nat.le_add_left 1 room⟩
  | .full lid entries, room, fits, free, numerals => by
      obtain ⟨deeper, fits⟩ := fits
      obtain ⟨docs, text, _, deep⟩ := entries_docs entries (room - 1) fits
        (free.sublist fun c inside =>
          List.mem_cons_of_mem _ (List.mem_append_left _ inside)) numerals
      obtain ⟨doc, spelled, _, _, depth⟩ := container_doc docs
      refine ⟨doc, by rw [spelled, text]; rfl, depth room fun entry inside => ?_⟩
      have below := deep entry inside
      omega

theorem entries_docs : ∀ {lid : Lid} (entries : Entries lid) (room : Nat), entries.Fits room →
    NulFree entries.spelling → (∀ run ∈ entries.runs, IsNumeral run) →
    ∃ docs : List (Label lid × Doc), entriesText true docs = entries.json ∧
      docs.isEmpty = entries.isNone ∧ ∀ entry ∈ docs, entry.2.depth ≤ room + 1
  | _, .none _, _, _, _, _ => ⟨[], rfl, rfl, fun entry never => by cases never⟩
  | _, .snoc front label value, room, fits, free, numerals => by
      obtain ⟨docs, text, same, deep⟩ := entries_docs front room fits.1
        (free.sublist (List.subset_append_left _ _)) fun run inside =>
          numerals run (List.mem_append_left _ inside)
      obtain ⟨named, namedText⟩ := native_label_doc label (free.sublist fun c inside =>
        List.mem_append_right _ (List.mem_append_right _ (List.mem_append_left _ inside)))
      obtain ⟨doc, docText, own⟩ := native_doc value room fits.2.2
        (free.sublist fun c inside =>
          List.mem_append_right _ (List.mem_append_right _ (List.mem_append_right _ inside)))
        fun run inside => numerals run (List.mem_append_right _ inside)
      refine ⟨docs ++ [(named, doc)], ?_, by simp [Entries.isNone], ?_⟩
      · rw [entries_text_append, text, Bool.true_and, same]
        simp [entriesText, namedText, docText, Entries.json]
      · intro entry inside
        rcases List.mem_append.mp inside with early | last
        · exact deep entry early
        · rw [List.mem_singleton.mp last]
          exact own

end

/-! ## Narrowed lengths -/

/-- The length does not come out of an `int` negative. -/
def Narrows (s : Bytes) : Prop := s.length % 2 ^ 32 < 2 ^ 31

theorem narrowed_some {s : Bytes} (narrows : Narrows s) :
    narrowed s = some (s.take (s.length % 2 ^ 32)) := if_pos narrows

theorem narrowed_subset {s t : Bytes} (found : narrowed s = some t) : Narrows s ∧ t ⊆ s := by
  unfold narrowed at found
  split_ifs at found with narrows
  rw [← Option.some.inj found]
  exact ⟨narrows, fun _ inside => List.mem_of_mem_take inside⟩

theorem short_narrows {s : Bytes} (short : s.length < 2 ^ 31) : Narrows s := by
  rw [Narrows, Nat.mod_eq_of_lt (by omega)]
  exact short

theorem slice_length_le (s : Bytes) (p q : Nat) : (slice s p q).length ≤ s.length :=
  ((List.take_sublist _ _).trans (List.drop_sublist _ _)).length_le

theorem slice_subset (s : Bytes) (p q : Nat) : slice s p q ⊆ s := by
  intro c inside
  exact List.mem_of_mem_drop (List.mem_of_mem_take inside)

theorem narrowed_slice_free {s t : Bytes} (free : NulFree s) {p q : Nat}
    (found : narrowed (slice s p q) = some t) : NulFree t :=
  free.sublist fun _ inside => slice_subset s p q ((narrowed_subset found).2 inside)

/-! ## Spliced arguments -/

theorem cleaned_bytes (s : Bytes) : ∀ c ∈ cleaned s, c ∈ s ∨ c ∈ replacement := by
  intro c inside
  obtain ⟨u, unit, here⟩ := List.mem_flatMap.mp inside
  unfold shown at here
  split_ifs at here
  · left
    rw [← units_flatten s]
    exact List.mem_flatten.mpr ⟨u, unit, here⟩
  · exact Or.inr here

/-- A name that needs no escape is the inside of a string. -/
theorem raw_inner {s : Bytes} (free : NulFree s) (raw : ∀ c ∈ s, StandsRaw c) :
    Inner (cleaned s) := by
  have stands : ∀ c ∈ cleaned s, StandsRaw c := by
    intro c inside
    rcases cleaned_bytes s c inside with here | there
    · exact raw c here
    · have all : ∀ d ∈ replacement, StandsRaw d := by decide +kernel
      exact all c there
  obtain ⟨chars, text, _⟩ := (pieces_escaped free).clean.raw_pieces stands
  exact ⟨chars, text⟩

theorem parameter_value_plain {s : Bytes} {parameter : Parameter} {body : Bytes}
    (other : jsonParse (rawValue s parameter) = none)
    (found : narrowed (rawValue s parameter) = some body) :
    parameterValue s parameter = quote :: (sbEsc body ++ [quote]) := by
  rw [parameterValue, other, found]
  simp only [escaped]
  rw [written_bytes_append, written_bytes_append, written_bytes]
  rfl

theorem parameter_value_overlong {s : Bytes} {parameter : Parameter}
    (other : jsonParse (rawValue s parameter) = none)
    (refused : narrowed (rawValue s parameter) = none) :
    parameterValue s parameter = [quote] := by
  rw [parameterValue, other, refused]
  rfl

theorem parameter_value_clean {s : Bytes} (free : NulFree s) (parameter : Parameter) :
    Clean (parameterValue s parameter) := by
  cases parsed : jsonParse (rawValue s parameter) with
  | some value =>
      rw [parameterValue, parsed]
      exact jv_dump_clean _
  | none =>
      cases found : narrowed (rawValue s parameter) with
      | some body =>
          rw [parameter_value_plain parsed found]
          exact quoted_clean (escaped_clean (narrowed_slice_free free found))
      | none =>
          rw [parameter_value_overlong parsed found]
          exact clean_nil.cons (by decide)

/-- A parameter's value is written as a document, but for an overlong one. -/
theorem parameter_value_doc {s : Bytes} (free : NulFree s) (parameter : Parameter)
    (fits : jsonParse (rawValue s parameter) = none → Narrows (rawValue s parameter)) :
    ∃ doc : Doc, doc.text = parameterValue s parameter ∧ doc.depth ≤ maxDepth := by
  cases parsed : jsonParse (rawValue s parameter) with
  | some value =>
      obtain ⟨_, _, doc, _, fine, same⟩ := (json_parse_iff _ _).mp parsed
      obtain ⟨printed, text, deep, _⟩ := doc_prints Blank.none doc maxDepth fine
      refine ⟨printed, ?_, deep⟩
      rw [parameterValue, parsed, text, same]
      rfl
  | none =>
      have found := narrowed_some (fits parsed)
      obtain ⟨chars, text, _⟩ := pieces_escaped (narrowed_slice_free free found)
      refine ⟨.leaf (.string chars), ?_, show 1 ≤ maxDepth by decide⟩
      rw [parameter_value_plain parsed found, Doc.text, Scalar.text, text]
      rfl

/-- What the parameters stand for: the name between quotes is the name as it is. -/
def parametersJson (s : Bytes) : Bool → List Parameter → Bytes
  | _, [] => []
  | first, parameter :: more =>
      (if first then [] else [comma]) ++ (quote :: (cleaned ((parameterName s parameter).getD []) ++
        (quote :: colon :: (parameterValue s parameter ++ parametersJson s false more))))

theorem pieces_quote : Pieces [backslash, quote] [quote] :=
  ⟨[.short quote quote rfl], rfl, rfl, by decide⟩

theorem pieces_raw {c : UInt8} (plain : PlainByte c) (raw : StandsRaw c) : Pieces [c] [c] := by
  apply Clean.raw_pieces (clean_nil.cons plain)
  intro d inside
  rwa [List.mem_singleton.mp inside]

theorem separator_pieces (first : Bool) :
    Pieces (if first then [] else [comma]) (if first then [] else [comma]) := by
  cases first
  · exact pieces_raw (by decide) (by decide)
  · exact pieces_nil

/-- A parameter whose name does not fail the buffer. -/
theorem parameter_pieces {s : Bytes} (free : NulFree s) (first : Bool) {parameter : Parameter}
    {name : Bytes} (found : parameterName s parameter = some name) :
    ∃ text, parameterItem first (parameterName s parameter) (parameterValue s parameter) =
        written text ∧
      Pieces text ((if first then [] else [comma]) ++
        (quote :: (cleaned name ++ (quote :: colon :: parameterValue s parameter)))) := by
  have colon_ : Pieces [colon] [colon] := pieces_raw (by decide) (by decide)
  have spelled := pieces_escaped (narrowed_slice_free free found)
  have valued := (parameter_value_clean free parameter).pieces
  refine ⟨_, ?_, (separator_pieces first).append (pieces_quote.append (spelled.append
    (pieces_quote.append (colon_.append valued))))⟩
  simp [parameterItem, found, escaped, written]

theorem parameters_pieces {s : Bytes} (free : NulFree s) : ∀ (first : Bool)
    (parameters : List Parameter),
    (∀ parameter ∈ parameters, ∃ name, parameterName s parameter = some name) →
    ∃ text, parametersText s first parameters = written text ∧
      Pieces text (parametersJson s first parameters)
  | _, [], _ => ⟨[], rfl, pieces_nil⟩
  | first, parameter :: more, named => by
      obtain ⟨later, laterText, laterPieces⟩ := parameters_pieces free false more fun other inside =>
        named other (List.mem_cons_of_mem _ inside)
      obtain ⟨name, found⟩ := named parameter List.mem_cons_self
      obtain ⟨text, spelled, pieces⟩ := parameter_pieces free first found
      have meant : parametersJson s first (parameter :: more) =
          (if first then [] else [comma]) ++ (quote :: (cleaned name ++ (quote :: colon ::
            parameterValue s parameter))) ++ parametersJson s false more := by
        simp [parametersJson, found]
      rw [meant]
      refine ⟨text ++ later, ?_, pieces.append laterPieces⟩
      rw [parametersText, spelled, laterText, written_append]

/-- The name is the inside of a string, and the value does not fail its buffer. -/
def ParameterReadable (s : Bytes) (parameter : Parameter) : Prop :=
  (∃ name, parameterName s parameter = some name ∧ Inner (cleaned name)) ∧
    (jsonParse (rawValue s parameter) = none → Narrows (rawValue s parameter))

theorem parameters_docs {s : Bytes} (free : NulFree s) : ∀ (first : Bool)
    (parameters : List Parameter),
    (∀ parameter ∈ parameters, ParameterReadable s parameter) →
    ∃ docs : List (Label .brace × Doc), entriesText first docs = parametersJson s first parameters
  | _, [], _ => ⟨[], rfl⟩
  | first, parameter :: more, readable => by
      obtain ⟨docs, text⟩ := parameters_docs free false more fun other inside =>
        readable other (List.mem_cons_of_mem _ inside)
      obtain ⟨⟨name, found, chars, charsText⟩, fits⟩ := readable parameter List.mem_cons_self
      obtain ⟨doc, docText, _⟩ := parameter_value_doc free parameter fits
      refine ⟨(bareLabel chars, doc) :: docs, ?_⟩
      simp [entriesText, text, charsText, docText, parametersJson, found]

/-! ## Each call -/

/-- The families whose dialect is converted to JSON. -/
def Converts (tmpl : Tmpl) : Prop := tmpl = .ornith ∨ isGemma4 tmpl = true

/-- The length of the arguments fits. -/
def ReplayedReadable (s : Bytes) : Prop :=
  ∀ block, replayedBlock s = some block → Narrows (slice s block.brace block.q)

/-- The length of the name fits, and the parameters of the call are readable. -/
def OrnithReadable (s : Bytes) : Prop :=
  ∀ block parameters, ornithBlock s = some block →
    Parameters s block.fnEnd (block.nameEnd + 1) parameters →
    Narrows (slice s block.name block.nameEnd) ∧
      ∀ parameter ∈ parameters, ParameterReadable s parameter

/-- The runs of number bytes in the arguments of the call are numerals. -/
def Gemma4Readable (s : Bytes) : Prop :=
  ∀ (name : Bytes) (entries : Entries .brace) (rest : Bytes), (∀ c ∈ name, c ≠ lbrace) →
    (Native.full .brace entries).Fits g4MaxDepth →
    s = callOpen ++ (name ++ ((Native.full .brace entries).spelling ++ rest)) →
    ∀ run ∈ entries.runs, IsNumeral run

def Readable (tmpl : Tmpl) (s : Bytes) : Prop :=
  (tmpl = .ornith → OrnithReadable s) ∧ (isGemma4 tmpl = true → Gemma4Readable s) ∧
    (¬Converts tmpl → ReplayedReadable s)

/-- The call can be written, and its arguments are an object. -/
def Call.Sound (tmpl : Tmpl) (call : Call) : Prop :=
  call.Whole ∧ (Converts tmpl → ∃ arguments, call.Spells arguments ∧ ObjectText arguments)

theorem object_text_of_doc {doc : Doc} {s : Bytes} (clean : Clean (lbrace :: s))
    (text : doc.text = lbrace :: s) : ObjectText (lbrace :: s) :=
  ⟨clean.wellFormed, doc, text, object_of_text text⟩

/-- The name in front of a brace that is found is short. -/
theorem replayed_name_narrows {s : Bytes} {block : ReplayedBlock}
    (found : replayedBlock s = some block) : Narrows (slice s callOpen.length block.brace) := by
  simp only [replayedBlock] at found
  have short : (((s.drop callOpen.length).take 128).takeWhile
      fun c => c != lbrace && c != 0x3c).length ≤ 128 :=
    ((List.takeWhile_prefix _).length_le).trans (List.length_take_le _ _)
  by_cases opened : ((s.drop callOpen.length).drop (((s.drop callOpen.length).take 128).takeWhile
      fun c => c != lbrace && c != 0x3c).length).head? = some lbrace
  · rw [if_neg (not_not_intro opened)] at found
    obtain ⟨q, _, rfl⟩ := Option.map_eq_some_iff.mp found
    rw [Narrows, slice, Nat.add_sub_cancel_left]
    have size := List.length_take_le (((s.drop callOpen.length).take 128).takeWhile
      fun c => c != lbrace && c != 0x3c).length (s.drop callOpen.length)
    omega
  · rw [if_pos opened] at found
    cases found

theorem replayed_call_sound {tmpl : Tmpl} {s : Bytes} {call : Call} {n : Nat} (free : NulFree s)
    (read : replayedCall s = .done (call, n)) (plain : ¬Converts tmpl)
    (readable : ReplayedReadable s) : call.Sound tmpl := by
  obtain ⟨block, found, name, arguments, _⟩ := replayed_call_reads read
  have named := narrowed_some (replayed_name_narrows found)
  have fits := narrowed_some (readable block found)
  refine ⟨⟨⟨_, name.trans named, narrowed_slice_free free named⟩, ?_⟩,
    fun converts => absurd converts plain⟩
  rw [fits] at arguments
  exact ⟨_, _, arguments, pieces_escaped (narrowed_slice_free free fits)⟩

/-- What is written for the parameters of a call. -/
theorem ornith_spells {s : Bytes} (free : NulFree s) {parameters : List Parameter}
    (named : ∀ parameter ∈ parameters, ∃ name, parameterName s parameter = some name)
    (name : Option Bytes) : Clean (lbrace :: (parametersJson s true parameters ++ [rbrace])) ∧
      (Call.mk name (written [lbrace] ++ (parametersText s true parameters ++
        written [rbrace]))).Spells (lbrace :: (parametersJson s true parameters ++ [rbrace])) := by
  obtain ⟨text, spelled, pieces⟩ := parameters_pieces free true parameters named
  have all : Pieces (lbrace :: (text ++ [rbrace]))
      (lbrace :: (parametersJson s true parameters ++ [rbrace])) :=
    (pieces_raw (by decide) (by decide)).append
      (pieces.append (pieces_raw (by decide) (by decide)))
  refine ⟨all.clean, _, ?_, all⟩
  rw [spelled, ← written_append, ← written_append]
  rfl

theorem ornith_call_sound {tmpl : Tmpl} {s : Bytes} {call : Call} {n : Nat} (free : NulFree s)
    (read : ornithCall s = .done (call, n)) (readable : OrnithReadable s) : call.Sound tmpl := by
  rcases ornith_call_reads s with ⟨_, answer⟩ | ⟨block, parameters, found, recorded, answer⟩
  · rw [answer] at read
    cases read
  · rw [answer] at read
    cases read
    obtain ⟨narrows, each⟩ := readable block parameters found recorded
    have named := narrowed_some narrows
    obtain ⟨clean, spells⟩ := ornith_spells free
      (fun parameter inside => (each parameter inside).1.imp fun _ both => both.1)
      (narrowed (slice s block.name block.nameEnd))
    refine ⟨⟨⟨_, named, narrowed_slice_free free named⟩, _, spells⟩, fun _ => ⟨_, spells, ?_⟩⟩
    obtain ⟨docs, docsText⟩ := parameters_docs free true parameters each
    obtain ⟨doc, docText, _⟩ := container_doc docs
    rw [docsText] at docText
    exact object_text_of_doc clean docText

/-- What is written for a native object behind its name. -/
theorem g4_spells {s name rest : Bytes} {entries : Entries .brace} (free : NulFree s)
    (spelled : s = callOpen ++ (name ++ ((Native.full .brace entries).spelling ++ rest))) :
    NulFree name ∧ NulFree (Native.full .brace entries).spelling ∧
      (Call.mk (some name) (written (sbEsc (Native.full .brace entries).json))).Spells
        (Native.full .brace entries).json := by
  have inner : NulFree (name ++ ((Native.full .brace entries).spelling ++ rest)) := by
    rw [spelled] at free
    exact free.sublist (List.subset_append_right _ _)
  have native : NulFree (Native.full .brace entries).spelling :=
    inner.sublist fun _ inside => List.mem_append_right _ (List.mem_append_left _ inside)
  have clean := native_json_clean (.full .brace entries) native
  exact ⟨inner.sublist (List.subset_append_left _ _), native, _, rfl, clean.pieces⟩

theorem g4_call_sound {tmpl : Tmpl} {s : Bytes} {call : Call} {n : Nat} (free : NulFree s)
    (read : g4OneCall s = .done (call, n)) (readable : Gemma4Readable s) : call.Sound tmpl := by
  obtain ⟨name, entries, rest, _, plain, fits, spelled, rfl, _⟩ := g4_call_reads read
  obtain ⟨named, native, spells⟩ := g4_spells free spelled
  obtain ⟨doc, text, _⟩ := native_doc (.full .brace entries) g4MaxDepth fits native
    (readable name entries rest plain fits spelled)
  exact ⟨⟨⟨name, rfl, named⟩, _, spells⟩, fun _ => ⟨_, spells,
    object_text_of_doc (native_json_clean (.full .brace entries) native) text⟩⟩

/-- The family's scanner read the block. -/
theorem block_at_done {tmpl : Tmpl} {s : Bytes} {found : Call × Nat}
    (read : (scannerFor tmpl).blockAt s = .done found) :
    (tmpl = .ornith ∧ ornithCall s = .done found) ∨
      (isGemma4 tmpl = true ∧ g4OneCall s = .done found) ∨
      (¬Converts tmpl ∧ replayedCall s = .done found) := by
  have begins : (scannerFor tmpl).block s = .done found := by
    unfold Scanner.blockAt at read
    split_ifs at read
    exact read
  unfold scannerFor at begins
  split_ifs at begins with ornith gemma4
  · exact Or.inl ⟨ornith, begins⟩
  · exact Or.inr (Or.inl ⟨gemma4, begins⟩)
  · exact Or.inr (Or.inr ⟨fun both => both.elim ornith gemma4, begins⟩)

theorem call_sound {tmpl : Tmpl} {s : Bytes} {call : Call} {n : Nat} (free : NulFree s)
    (read : (scannerFor tmpl).blockAt s = .done (call, n)) (readable : Readable tmpl s) :
    call.Sound tmpl := by
  rcases block_at_done read with ⟨ornith, found⟩ | ⟨gemma4, found⟩ | ⟨plain, found⟩
  · exact ornith_call_sound free found (readable.1 ornith)
  · exact g4_call_sound free found (readable.2.1 gemma4)
  · exact replayed_call_sound free found plain (readable.2.2 plain)

/-! ## The whole content -/

/-- The recovery ends; it leaves the content without its call blocks, and the content itself
when it finds none; the items between brackets are an array of as many objects as it counts;
and where the family's dialect is converted, the arguments of each are the text of an object. -/
def Recovers (tmpl : Tmpl) (content tc : Bytes) : Prop :=
  ∃ (calls : List Call) (left added : Bytes) (items : List Jv),
    Cuts (scannerFor tmpl).blockAt content calls left ∧
      toolCallsParseFor tmpl content tc = .done ⟨left, tc ++ added, calls.length⟩ ∧
      (calls.length = 0 → left = content) ∧
      jsonParse (lbracket :: (added ++ [rbracket])) = some (.arr items) ∧
      items.length = calls.length ∧
      ∀ (index : Nat) (item : Jv), items[index]? = some item → ∃ name arguments,
        item = callValue index name arguments ∧ (Converts tmpl → ObjectText arguments)

/-- The length of what is left survives an `int` where the scanner puts it in one, and the calls
that are cut are readable. -/
def Recoverable (tmpl : Tmpl) (content : Bytes) : Prop :=
  (isGemma4 tmpl = true ∨ ∀ calls left, Cuts (scannerFor tmpl).blockAt content calls left →
      calls = [] ∨ asSize left.length = left.length) ∧
    ∀ rest, CutAt (scannerFor tmpl).blockAt content rest → Readable tmpl rest

/-- A scanner ends; what it publishes of the content is as long as the narrowed length says. -/
theorem recover_runs {scanner : Scanner UInt8 Call (Option UInt8)} (lawful : scanner.Lawful)
    (size : Nat → Nat) (content tc : Bytes) :
    ∃ (calls : List Call) (left cells : Bytes), Cuts scanner.blockAt content calls left ∧
      recover scanner size content tc =
        .done ⟨if calls = [] then content else cells.take (size left.length),
          tc ++ Written.bytes (scanner.emitted 0 calls), calls.length⟩ ∧
      cells.length = content.length ∧ cells.take left.length = left := by
  obtain ⟨final, calls, left, run, cuts, front, wrote, length, counted, emitted, untouched⟩ :=
    lawful.loop_cuts content (written tc)
  refine ⟨calls, left, final.tape.cells, cuts, ?_, length, wrote ▸ front⟩
  rw [recover, run, Outcome.map_done, publish, counted, emitted, written_bytes_append, wrote]
  by_cases none_ : calls = []
  · rw [if_pos (by rw [none_]; rfl), if_pos none_, untouched none_]
  · rw [if_neg fun zero => none_ (List.length_eq_zero_iff.mp zero), if_neg none_]

theorem recover_cuts {scanner : Scanner UInt8 Call (Option UInt8)} (lawful : scanner.Lawful)
    {size : Nat → Nat} (content tc : Bytes)
    (sized : ∀ calls left, Cuts scanner.blockAt content calls left →
      calls = [] ∨ size left.length = left.length) :
    ∃ calls left, Cuts scanner.blockAt content calls left ∧
      recover scanner size content tc =
        .done ⟨left, tc ++ Written.bytes (scanner.emitted 0 calls), calls.length⟩ := by
  obtain ⟨calls, left, cells, cuts, run, _, front⟩ := recover_runs lawful size content tc
  refine ⟨calls, left, cuts, ?_⟩
  rw [run]
  by_cases none_ : calls = []
  · rw [if_pos none_, cuts.left_whole none_]
  · rw [if_neg none_, (sized calls left cuts).resolve_left none_, front]

theorem parse_for_scanner (tmpl : Tmpl) (content tc : Bytes) :
    toolCallsParseFor tmpl content tc = recover (scannerFor tmpl)
      (if isGemma4 tmpl = true then id else asSize) content tc := by
  unfold toolCallsParseFor scannerFor
  by_cases ornith : tmpl = .ornith
  · rw [if_pos ornith, if_pos ornith, ornith]
    rfl
  · rw [if_neg ornith, if_neg ornith]
    split_ifs <;> rfl

/-- Free text without a NUL is recovered from when its calls are readable. -/
theorem recoverable_recovers (tmpl : Tmpl) (content tc : Bytes) (free : NulFree content)
    (recoverable : Recoverable tmpl content) : Recovers tmpl content tc := by
  obtain ⟨short, readable⟩ := recoverable
  have sized : ∀ calls left, Cuts (scannerFor tmpl).blockAt content calls left → calls = [] ∨
      (if isGemma4 tmpl = true then id else asSize) left.length = left.length := by
    intro calls left cuts
    by_cases gemma4 : isGemma4 tmpl = true
    · rw [if_pos gemma4]
      exact Or.inr rfl
    · rw [if_neg gemma4]
      exact short.resolve_left gemma4 calls left cuts
  obtain ⟨calls, left, cuts, run⟩ := recover_cuts (scanner_lawful tmpl) content tc sized
  have sound := cuts.items_hold (Call.Sound tmpl) fun rest at_ call n read =>
    call_sound (free.sublist at_.suffix.subset) read (readable rest at_)
  obtain ⟨added, items, emitted, parsed, counted, objects⟩ := items_array (scannerFor tmpl)
    (scanner_emits tmpl) calls fun call inside => (sound call inside).1
  rw [emitted, written_bytes] at run
  refine ⟨calls, left, added, items, cuts, (parse_for_scanner tmpl content tc).trans run, ?_, parsed,
    counted, ?_⟩
  · intro none_
    exact cuts.left_whole (List.length_eq_zero_iff.mp none_)
  · intro index item here
    have bound : index < calls.length := by
      rw [← counted]
      exact (List.getElem?_eq_some_iff.mp here).1
    obtain ⟨name, arguments, _, spells, shape⟩ :=
      objects index calls[index] item (List.getElem?_eq_getElem bound) here
    refine ⟨_, arguments, shape, fun converts => ?_⟩
    obtain ⟨spelled, spells', object⟩ := (sound calls[index] (List.getElem_mem bound)).2 converts
    rw [spells'.unique spells]
    exact object

end GridcoreRunner.Template
