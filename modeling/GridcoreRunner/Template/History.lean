import GridcoreRunner.Template.ArgumentFormat
import GridcoreRunner.Template.RecoveredArguments

/-!
# Replayed calls are read back

`tool_history_render_for` writes the calls of an earlier turn in the family's own protocol.
For the Gemma 4 families this is the text that the recovery of tool calls reads, and it reads
the same calls.
-/

namespace GridcoreRunner.Template

set_option autoImplicit false

open GridcoreRunner.Json GridcoreRunner.Compaction

/-- A parsed value is written as a native value, and what that is read as is parsed to the
value with its members in another order. -/
theorem parsed_formats {s : Bytes} {v : Jv} (parsed : jsonParse s = some v) (formats : Formats v) :
    ∃ native doc w, FormatsAs g4MaxDepth v native doc ∧ Clean native.json ∧
      jsonParse native.json = some w ∧ Reordered v w := by
  obtain ⟨_, _, doc₀, _, fine, same⟩ := (json_parse_iff _ _).mp parsed
  have structured := doc_parsed doc₀ maxDepth fine
  rw [← same] at structured
  obtain ⟨native, doc, as⟩ := value_formats v maxDepth formats structured
  have whole : doc.fine maxDepth = true := (doc_fine_iff doc maxDepth).mpr ⟨as.valid, as.depth⟩
  have read := json_parse_doc Blank.none doc
  rw [Blank.none, List.nil_append, if_pos whole] at read
  have clean := doc_clean doc as.valid
  rw [as.text] at read clean
  exact ⟨native, doc, doc.jv, as, clean, read, as.same⟩

theorem run_ends_nil : RunEnds [] := by
  intro c never
  cases never

/-! ## Rendering -/

/-- `jv_get` -/
def jvGet (v : Jv) (key : Bytes) : Option Jv :=
  match v with
  | .obj keys items => ((keys.zip items).find? fun member => cString member.1 == key).map Prod.snd
  | _ => none

/-- `jv_str` -/
def jvStr : Option Jv → Option Bytes
  | some (.str s) => some (cString s)
  | _ => none

def emptyArguments : Bytes := [lbrace, rbrace]

/-- The name and the arguments of a call; a call without a name is passed over. -/
def historyCall (item : Jv) : Option (Bytes × Bytes) :=
  let fn := jvGet item functionKey
  (jvStr (fn.bind fun v => jvGet v nameKey)).map fun name =>
    (name, (jvStr (fn.bind fun v => jvGet v argumentsKey)).getD emptyArguments)

/-- `<|tools_prefix|>[` -/
def toolsPrefix : Bytes :=
  [0x3c, 0x7c, 0x74, 0x6f, 0x6f, 0x6c, 0x73, 0x5f, 0x70, 0x72, 0x65, 0x66, 0x69, 0x78, 0x7c,
    0x3e, 0x5b]

/-- `]<|tools_suffix|>` -/
def toolsSuffix : Bytes :=
  [0x5d, 0x3c, 0x7c, 0x74, 0x6f, 0x6f, 0x6c, 0x73, 0x5f, 0x73, 0x75, 0x66, 0x66, 0x69, 0x78,
    0x7c, 0x3e]

/-- `<|eom|><|start|>assistant to=` -/
def museTurn : Bytes :=
  [0x3c, 0x7c, 0x65, 0x6f, 0x6d, 0x7c, 0x3e, 0x3c, 0x7c, 0x73, 0x74, 0x61, 0x72, 0x74, 0x7c,
    0x3e, 0x61, 0x73, 0x73, 0x69, 0x73, 0x74, 0x61, 0x6e, 0x74, 0x20, 0x74, 0x6f, 0x3d]

/-- `<|message|>` -/
def museMessage : Bytes :=
  [0x3c, 0x7c, 0x6d, 0x65, 0x73, 0x73, 0x61, 0x67, 0x65, 0x7c, 0x3e]

/-- `<atem:function_calls>\n<atem:invoke name="` -/
def museOpen : Bytes :=
  [0x3c, 0x61, 0x74, 0x65, 0x6d, 0x3a, 0x66, 0x75, 0x6e, 0x63, 0x74, 0x69, 0x6f, 0x6e, 0x5f,
    0x63, 0x61, 0x6c, 0x6c, 0x73, 0x3e, 0x0a, 0x3c, 0x61, 0x74, 0x65, 0x6d, 0x3a, 0x69, 0x6e,
    0x76, 0x6f, 0x6b, 0x65, 0x20, 0x6e, 0x61, 0x6d, 0x65, 0x3d, 0x22]

/-- `<atem:parameter name="` -/
def museParameter : Bytes :=
  [0x3c, 0x61, 0x74, 0x65, 0x6d, 0x3a, 0x70, 0x61, 0x72, 0x61, 0x6d, 0x65, 0x74, 0x65, 0x72,
    0x20, 0x6e, 0x61, 0x6d, 0x65, 0x3d, 0x22]

/-- `</atem:parameter>\n` -/
def museParameterClose : Bytes :=
  [0x3c, 0x2f, 0x61, 0x74, 0x65, 0x6d, 0x3a, 0x70, 0x61, 0x72, 0x61, 0x6d, 0x65, 0x74, 0x65,
    0x72, 0x3e, 0x0a]

/-- `</atem:invoke>\n</atem:function_calls>` -/
def museClose : Bytes :=
  [0x3c, 0x2f, 0x61, 0x74, 0x65, 0x6d, 0x3a, 0x69, 0x6e, 0x76, 0x6f, 0x6b, 0x65, 0x3e, 0x0a,
    0x3c, 0x2f, 0x61, 0x74, 0x65, 0x6d, 0x3a, 0x66, 0x75, 0x6e, 0x63, 0x74, 0x69, 0x6f, 0x6e,
    0x5f, 0x63, 0x61, 0x6c, 0x6c, 0x73, 0x3e]

/-- `<tool_call>\n<function=` -/
def ornithCallOpen : Bytes :=
  [0x3c, 0x74, 0x6f, 0x6f, 0x6c, 0x5f, 0x63, 0x61, 0x6c, 0x6c, 0x3e, 0x0a, 0x3c, 0x66, 0x75,
    0x6e, 0x63, 0x74, 0x69, 0x6f, 0x6e, 0x3d]

/-- `<parameter=` -/
def ornithParameter : Bytes :=
  [0x3c, 0x70, 0x61, 0x72, 0x61, 0x6d, 0x65, 0x74, 0x65, 0x72, 0x3d]

/-- `\n</parameter>\n` -/
def ornithParameterClose : Bytes :=
  [0x0a, 0x3c, 0x2f, 0x70, 0x61, 0x72, 0x61, 0x6d, 0x65, 0x74, 0x65, 0x72, 0x3e, 0x0a]

/-- `</function>\n</tool_call>` -/
def ornithCallClose : Bytes :=
  [0x3c, 0x2f, 0x66, 0x75, 0x6e, 0x63, 0x74, 0x69, 0x6f, 0x6e, 0x3e, 0x0a, 0x3c, 0x2f, 0x74,
    0x6f, 0x6f, 0x6c, 0x5f, 0x63, 0x61, 0x6c, 0x6c, 0x3e]

def newline : UInt8 := 0x0a

/-- A string stands in a parameter as it is, any other value as JSON. -/
def parameterBody : Jv → Bytes
  | .str s => cString s
  | v => jvDump v

/-- One parameter for each member of the arguments, if they are an object. -/
def parameterTexts (open_ middle close : Bytes) : Option Jv → Bytes
  | some (.obj keys items) => (keys.zip items).flatMap fun member =>
      open_ ++ (cString member.1 ++ (middle ++ (parameterBody member.2 ++ close)))
  | _ => []

def gemma4History (name args : Bytes) : Bytes :=
  callOpen ++ (name ++ ((match jsonParse args with
    | some (.obj keys items) => g4FormatArgument false (.obj keys items)
    | _ => emptyArguments) ++ callClose))

def apertusHistory (first : Bool) (name args : Bytes) : Bytes :=
  (if first then toolsPrefix else [comma, 0x20]) ++ ([lbrace, quote] ++ (sbEsc name ++
    ([quote, colon, 0x20] ++ (args ++ [rbrace]))))

def museHistory (first : Bool) (name args : Bytes) : Bytes :=
  (if first then [] else museTurn ++ (name ++ museMessage)) ++ (museOpen ++ (name ++
    ([quote, greater, newline] ++
      (parameterTexts museParameter [quote, greater] museParameterClose (jsonParse args) ++ museClose))))

def ornithHistory (first hasText : Bool) (name args : Bytes) : Bytes :=
  (if !first then [newline] else if hasText then [newline, newline] else []) ++
    (ornithCallOpen ++ (name ++ ([greater, newline] ++
      (parameterTexts ornithParameter [greater, newline] ornithParameterClose (jsonParse args) ++
        ornithCallClose))))

/-- One call; `first` is whether no call was written before it. -/
def historyText (tmpl : Tmpl) (hasText first : Bool) (name args : Bytes) : Bytes :=
  if tmpl = .apertus then apertusHistory first name args
  else if isGemma4 tmpl then gemma4History name args
  else if tmpl ≠ .ornith ∧ tmpl ≠ .muse then callOpen ++ (name ++ (args ++ callClose))
  else if tmpl = .muse then museHistory first name args
  else ornithHistory first hasText name args

def historyLoop (tmpl : Tmpl) (hasText : Bool) : Bool → List Jv → Bytes
  | first, [] => if tmpl = .apertus ∧ !first then toolsSuffix else []
  | first, item :: items =>
      match historyCall item with
      | none => historyLoop tmpl hasText first items
      | some (name, args) =>
          historyText tmpl hasText first name args ++ historyLoop tmpl hasText false items

/-- `tool_history_render_for`, what it appends. -/
def toolHistoryRenderFor (tmpl : Tmpl) (calls : Jv) (hasText : Bool) : Bytes :=
  match calls with
  | .arr items => if tmpl = .harmony then [] else historyLoop tmpl hasText true items
  | _ => []

/-! ## Reading back -/

theorem g4_block_refused {text : Bytes} (unmarked : ¬callOpen <+: text) :
    gemma4Scanner.blockAt text = .refused := by
  have refused : g4OneCall text = .refused := if_pos unmarked
  unfold Scanner.blockAt
  split_ifs
  · exact refused
  · rfl


/-- A text without the marker holds no call. -/
theorem no_call_cuts {text : Bytes} (plain : ¬callOpen <:+: text) :
    Cuts gemma4Scanner.blockAt text [] text := by
  have nothing : ∀ earlier < text.length,
      gemma4Scanner.blockAt (text.drop earlier) = .refused := by
    intro earlier _
    apply g4_block_refused
    intro begins
    exact plain (begins.isInfix.trans (List.drop_suffix earlier text).isInfix)
  have ended : Cuts gemma4Scanner.blockAt (text.drop text.length) [] [] := by
    rw [List.drop_length]
    exact Cuts.nil
  have all := Cuts.keep_many (Nat.le_refl _) nothing ended
  rwa [List.take_length, List.append_nil] at all

/-- The call that is read is the one that was written. -/
def ReadBack (call : Bytes × Bytes) (parsed : Call) : Prop :=
  parsed.name = some call.1 ∧ ∃ arguments v w, parsed.Spells arguments ∧ jsonParse call.2 = some v ∧
    jsonParse arguments = some w ∧ Reordered v w

theorem gemma4_history_object {name args : Bytes} {keys : List Bytes} {items : List Jv}
    (parsed : jsonParse args = some (.obj keys items)) : gemma4History name args =
      callOpen ++ (name ++ (g4FormatArgument false (.obj keys items) ++ callClose)) := by
  simp only [gemma4History, parsed]

/-- A rendered call is read as the call, to the end of its text. -/
theorem g4_history_reads {name args : Bytes} {keys : List Bytes} {items : List Jv}
    (identifier : Identifier name) (parsed : jsonParse args = some (.obj keys items))
    (formats : Formats (.obj keys items)) (rest : Bytes) : ∃ call,
      g4OneCall (gemma4History name args ++ rest) =
        .done (call, (gemma4History name args).length) ∧ ReadBack (name, args) call := by
  obtain ⟨native, doc, w, as, clean, read, same⟩ := parsed_formats parsed formats
  have shape : ∃ s, g4FormatArgument false (.obj keys items) = lbrace :: s := ⟨_, rfl⟩
  obtain ⟨s, shape⟩ := shape
  have whole : gemma4History name args ++ rest =
      callOpen ++ (name ++ (lbrace :: (s ++ (callClose ++ rest)))) := by
    rw [gemma4_history_object parsed, shape]
    simp
  have plain : ∀ c ∈ name, c ≠ lbrace := fun c inside =>
    (word_byte (identifier.2 c inside)).2.2.2.1
  have ends : RunEnds (callClose ++ rest) := by
    intro c head
    rw [← Option.some.inj head]
    rfl
  have valued := native_reads native g4MaxDepth (callClose ++ rest) as.fits fun _ => ends
  rw [as.spelling, shape, List.cons_append] at valued
  have length : (gemma4History name args ++ rest).length - (callClose ++ rest).length +
      callClose.length = (gemma4History name args).length := by
    rw [gemma4_history_object parsed]
    simp only [List.length_append]
    omega
  have closed : callClose <+: callClose ++ rest := List.prefix_append _ _
  refine ⟨⟨some name, written (sbEsc native.json)⟩, ?_, rfl, native.json, _, w,
    ⟨_, rfl, clean.pieces⟩, parsed, read, same⟩
  rw [← length, whole, g4_one_call plain valued, if_neg identifier.1, if_pos closed]

/-- A call that the protocol can carry: its name is an identifier, and its arguments are an
object that the native syntax can spell. -/
def Replayable (call : Bytes × Bytes) : Prop :=
  Identifier call.1 ∧ ∃ keys items, jsonParse call.2 = some (.obj keys items) ∧
    Formats (.obj keys items)

/-- Rendered calls in front of a text are cut from it one after another. -/
theorem history_cuts {after : Bytes} (plain : ¬callOpen <:+: after) :
    ∀ calls : List (Bytes × Bytes), (∀ call ∈ calls, Replayable call) →
      ∃ parsed : List Call, List.Forall₂ ReadBack calls parsed ∧
        Cuts gemma4Scanner.blockAt
          ((calls.flatMap fun call => gemma4History call.1 call.2) ++ after) parsed after
  | [], _ => ⟨[], .nil, no_call_cuts plain⟩
  | (name, args) :: calls, all => by
      obtain ⟨parsed, same, cuts⟩ := history_cuts plain calls fun other inside =>
        all other (List.mem_cons_of_mem _ inside)
      obtain ⟨identifier, keys, items, object, formats⟩ := all (name, args) List.mem_cons_self
      obtain ⟨call, read, back⟩ := g4_history_reads identifier object formats
        ((calls.flatMap fun call => gemma4History call.1 call.2) ++ after)
      refine ⟨call :: parsed, .cons back same, ?_⟩
      rw [List.flatMap_cons, List.append_assoc]
      have marked : gemma4Scanner.marker <+: gemma4History name args ++
          ((calls.flatMap fun call => gemma4History call.1 call.2) ++ after) := by
        have opened : gemma4Open <+: callOpen := by decide
        exact (opened.trans (List.prefix_append _ _)).trans (List.prefix_append _ _)
      have found : gemma4Scanner.blockAt (gemma4History name args ++
          ((calls.flatMap fun call => gemma4History call.1 call.2) ++ after)) =
            .done (call, (gemma4History name args).length) := by
        unfold Scanner.blockAt
        rw [if_pos marked]
        exact read
      have some_ : 0 < (gemma4History name args).length := by
        rw [gemma4History, List.length_append]
        exact Nat.lt_of_lt_of_le (by decide) (Nat.le_add_right _ _)
      apply Cuts.cut found some_
      · rw [List.length_append]
        exact Nat.le_add_right _ _
      · rw [List.drop_left]
        exact cuts

/-- The calls of a history in their order. -/
theorem gemma4_history_loop {tmpl : Tmpl} (gemma4 : isGemma4 tmpl = true) (hasText first : Bool)
    (items : List Jv) : historyLoop tmpl hasText first items =
      (items.filterMap historyCall).flatMap fun call => gemma4History call.1 call.2 := by
  have other : tmpl ≠ .apertus := by
    intro same
    rw [same] at gemma4
    cases gemma4
  induction items generalizing first with
  | nil => simp [historyLoop, other]
  | cons item items induction =>
      rw [historyLoop, List.filterMap_cons]
      cases found : historyCall item with
      | none => exact induction first
      | some call =>
          obtain ⟨name, args⟩ := call
          simp only [List.flatMap_cons]
          rw [induction false, historyText, if_neg other, if_pos gemma4]

theorem gemma4_history_render {tmpl : Tmpl} (gemma4 : isGemma4 tmpl = true) (hasText : Bool)
    (items : List Jv) : toolHistoryRenderFor tmpl (.arr items) hasText =
      (items.filterMap historyCall).flatMap fun call => gemma4History call.1 call.2 := by
  have other : tmpl ≠ .harmony := by
    intro same
    rw [same] at gemma4
    cases gemma4
  rw [toolHistoryRenderFor, if_neg other]
  exact gemma4_history_loop gemma4 hasText true items

theorem gemma4_scanner {tmpl : Tmpl} (gemma4 : isGemma4 tmpl = true) :
    scannerFor tmpl = gemma4Scanner := by
  cases tmpl <;> first | rfl | cases gemma4

/-- Nothing begins in a text without the marker in front of calls, or of more such text. -/
theorem history_between {before after : Bytes} (calls : List (Bytes × Bytes))
    (plain : ¬callOpen <:+: before) (joined : calls = [] → ¬callOpen <:+: before ++ after) :
    ∀ earlier < before.length, gemma4Scanner.blockAt
      ((before ++ ((calls.flatMap fun call => gemma4History call.1 call.2) ++ after)).drop
        earlier) = .refused := by
  intro earlier bound
  apply g4_block_refused
  intro begins
  cases calls with
  | nil => exact joined rfl (begins.isInfix.trans (List.drop_suffix earlier _).isInfix)
  | cons call calls =>
      have unbordered : Unbordered callOpen := by decide
      rw [List.flatMap_cons, gemma4History, List.append_assoc, List.append_assoc] at begins
      have hit := unbordered.first_hit (List.cons_ne_nil _ _) plain
        ((call.1 ++ ((match jsonParse call.2 with
          | some (.obj keys items) => g4FormatArgument false (.obj keys items)
          | _ => emptyArguments) ++ callClose)) ++
          ((calls.flatMap fun call => gemma4History call.1 call.2) ++ after))
      have free := Text.first_hit_first hit earlier bound
      exact Text.hit_at_none.mp free callOpen (List.mem_singleton_self _) begins

/-- The object that is read back for a call. -/
def IsReplayed (index : Nat) (call : Bytes × Bytes) (object : Jv) : Prop :=
  ∃ arguments v w, object = callValue index call.1 arguments ∧ jsonParse call.2 = some v ∧
    jsonParse arguments = some w ∧ Reordered v w

/-- The native argument syntax is read back: an object that it can spell is read to its end and
parsed to the object with its members in another order, and calls that are rendered into a text
are recovered with their names and such arguments, in order, and leave the text. -/
theorem gemma4_round_trip :
    (∀ (s : Bytes) (keys : List Bytes) (items : List Jv),
      jsonParse s = some (.obj keys items) → Formats (.obj keys items) →
      ∃ out w, g4JsonValue g4MaxDepth (g4FormatArgument false (.obj keys items)) =
          .done (out, []) ∧
        jsonParse out = some w ∧ Reordered (.obj keys items) w) ∧
    ∀ (tmpl : Tmpl) (items : List Jv) (hasText : Bool) (before after tc : Bytes),
      isGemma4 tmpl = true → (∀ call ∈ items.filterMap historyCall, Replayable call) →
      ¬callOpen <:+: before → ¬callOpen <:+: after →
      (items.filterMap historyCall = [] → ¬callOpen <:+: before ++ after) →
      ∃ (added : Bytes) (objects : List Jv),
        toolCallsParseFor tmpl
            (before ++ (toolHistoryRenderFor tmpl (.arr items) hasText ++ after)) tc =
          .done ⟨before ++ after, tc ++ added, (items.filterMap historyCall).length⟩ ∧
        jsonParse (lbracket :: (added ++ [rbracket])) = some (.arr objects) ∧
        objects.length = (items.filterMap historyCall).length ∧
        ∀ (index : Nat) (call : Bytes × Bytes) (object : Jv),
          (items.filterMap historyCall)[index]? = some call → objects[index]? = some object →
          IsReplayed index call object := by
  constructor
  · intro s keys items parsed formats
    obtain ⟨native, doc, w, as, _, read, same⟩ := parsed_formats parsed formats
    have valued := native_reads native g4MaxDepth [] as.fits fun _ => run_ends_nil
    rw [List.append_nil, as.spelling] at valued
    exact ⟨native.json, w, valued, read, same⟩
  · intro tmpl items hasText before after tc gemma4 replayable front back joined
    rw [gemma4_history_render gemma4]
    generalize items.filterMap historyCall = calls at replayable joined ⊢
    obtain ⟨parsed, same, cuts⟩ := history_cuts back calls replayable
    have whole : Cuts gemma4Scanner.blockAt
        (before ++ ((calls.flatMap fun call => gemma4History call.1 call.2) ++ after)) parsed
        (before ++ after) := by
      have room : before.length ≤
          (before ++ ((calls.flatMap fun call => gemma4History call.1 call.2) ++ after)).length := by
        rw [List.length_append]
        exact Nat.le_add_right _ _
      have later : Cuts gemma4Scanner.blockAt
          ((before ++ ((calls.flatMap fun call => gemma4History call.1 call.2) ++ after)).drop
            before.length) parsed after := by
        rw [List.drop_left]
        exact cuts
      have all := Cuts.keep_many room (history_between calls front joined) later
      rwa [List.take_left] at all
    have run := parse_for_scanner tmpl
      (before ++ ((calls.flatMap fun call => gemma4History call.1 call.2) ++ after)) tc
    rw [if_pos gemma4] at run
    obtain ⟨found, left, cuts', answer⟩ := recover_cuts (scanner_lawful tmpl)
      (before ++ ((calls.flatMap fun call => gemma4History call.1 call.2) ++ after)) tc
      fun _ left _ => Or.inr (id_eq left.length)
    rw [gemma4_scanner gemma4] at cuts' answer run
    obtain ⟨rfl, rfl⟩ := whole.unique cuts'
    have count : found.length = calls.length := same.length_eq.symm
    have whole_ : ∀ call ∈ found, call.Whole := by
      intro call inside
      obtain ⟨index, bound, rfl⟩ := List.mem_iff_getElem.mp inside
      obtain ⟨name, arguments, _, _, spells, _⟩ := same.get (by omega) bound
      rw [List.get_eq_getElem, List.get_eq_getElem] at name
      exact ⟨⟨_, name, (identifier_clean (replayable _ (List.getElem_mem _)).1).nulFree⟩,
        arguments, spells⟩
    obtain ⟨added, objects, emitted, array, length, are⟩ :=
      items_array gemma4Scanner rfl found whole_
    rw [emitted, written_bytes] at answer
    refine ⟨added, objects, ?_, array, by rw [length, count], ?_⟩
    · rw [run, answer, count]
    · intro index call object atCalls atObjects
      have bound := (List.getElem?_eq_some_iff.mp atCalls).1
      have inside : index < found.length := by omega
      obtain ⟨name, arguments, v, w, spells, parsed, read, reordered⟩ := same.get bound inside
      obtain ⟨name', arguments', named, spells', shape⟩ :=
        are index found[index] object (List.getElem?_eq_getElem inside) atObjects
      have own : calls[index] = call := by
        rw [List.getElem?_eq_getElem bound] at atCalls
        exact Option.some.inj atCalls
      simp only [List.get_eq_getElem] at name spells parsed
      rw [own] at name parsed
      have identifier := (replayable call (List.mem_of_getElem? atCalls)).1
      refine ⟨arguments, v, w, ?_, parsed, read, reordered⟩
      rw [name, Option.some.injEq] at named
      rw [shape, spells.unique spells', ← named, (identifier_clean identifier).cleaned]

/-- `{"b":true,"a":"x"}` -/
def swappedArguments : Bytes :=
  [0x7b, 0x22, 0x62, 0x22, 0x3a, 0x74, 0x72, 0x75, 0x65, 0x2c, 0x22, 0x61, 0x22, 0x3a, 0x22,
    0x78, 0x22, 0x7d]

/-- A turn with one call, of a function `f`. -/
def swappedTurn : List Jv :=
  [.obj [functionKey] [.obj [nameKey, argumentsKey] [.str [0x66], .str swappedArguments]]]

/-- A call between two texts: its members change places, and it is read back. -/
theorem swapped_call_replayed : ∃ (added : Bytes) (objects : List Jv),
    toolCallsParseFor .gemma4
        ([0x48, 0x69] ++ (toolHistoryRenderFor .gemma4 (.arr swappedTurn) true ++ [0x21])) [] =
      .done ⟨[0x48, 0x69] ++ [0x21], [] ++ added, (swappedTurn.filterMap historyCall).length⟩ ∧
    jsonParse (lbracket :: (added ++ [rbracket])) = some (.arr objects) ∧
    objects.length = (swappedTurn.filterMap historyCall).length ∧
    ∀ (index : Nat) (call : Bytes × Bytes) (object : Jv),
      (swappedTurn.filterMap historyCall)[index]? = some call → objects[index]? = some object →
      IsReplayed index call object := by
  apply gemma4_round_trip.2 .gemma4 swappedTurn true [0x48, 0x69] [0x21] [] rfl
  · have only : swappedTurn.filterMap historyCall = [([0x66], swappedArguments)] := rfl
    intro call inside
    rw [only] at inside
    rw [List.mem_singleton.mp inside]
    refine ⟨⟨by decide, by decide +kernel⟩, [[0x62], [0x61]], [.bool true, .str [0x78]], rfl, ?_, ?_⟩
    · have words : ∀ key ∈ ([[0x62], [0x61]] : List Bytes), Identifier key := by
        unfold Identifier
        decide +kernel
      exact words
    · have free : ¬g4Quote <:+: [0x78] := by decide
      exact ⟨trivial, free, trivial⟩
  · decide
  · decide
  · intro never
    cases never

end GridcoreRunner.Template
