import Mathlib.Data.List.DropRight
import GridcoreRunner.Json.Build
import GridcoreRunner.Json.Clean
import GridcoreRunner.Template.ArgumentReader

/-!
# Writing native arguments

`g4_format_argument` writes a value in the syntax that `g4_json_value` reads. The members of
an object are written in the order of `jv_dictsort`, so what is read back is the value with
its members in that order.
-/

namespace GridcoreRunner.Template

set_option autoImplicit false

open GridcoreRunner.Json

/-! ## The order of members -/

def lower (c : UInt8) : UInt8 := if 0x41 ≤ c ∧ c ≤ 0x5a then c - 0x41 + 0x61 else c

/-- `jv_key_cmp`; a key ends at its NUL. -/
def jvKeyCmp : Bytes → Bytes → Int
  | [], [] => 0
  | [], y :: _ => if lower y = 0 then 0 else -1
  | x :: _, [] => if lower x = 0 then 0 else 1
  | x :: a, y :: b =>
      if lower x ≠ lower y then if lower x < lower y then -1 else 1
      else if lower x = 0 then 0
      else jvKeyCmp a b

/-- Insert an index behind those whose keys are not greater. -/
def insertIndex (keys : List Bytes) (order : List Nat) (i : Nat) : List Nat :=
  let greater := fun j => decide (jvKeyCmp (keys.getD j []) (keys.getD i []) > 0)
  order.rdropWhile greater ++ i :: order.rtakeWhile greater

/-- `jv_dictsort` -/
def jvDictsort (keys : List Bytes) : List Nat :=
  (List.range keys.length).foldl (insertIndex keys) []

theorem insert_index_perm (keys : List Bytes) (order : List Nat) (i : Nat) :
    (insertIndex keys order i).Perm (i :: order) := by
  unfold insertIndex
  apply List.perm_middle.trans
  rw [List.rdropWhile_append_rtakeWhile]

theorem dictsort_perm (keys : List Bytes) :
    (jvDictsort keys).Perm (List.range keys.length) := by
  have all : ∀ (more order : List Nat),
      (more.foldl (insertIndex keys) order).Perm (order ++ more) := by
    intro more
    induction more with
    | nil =>
        intro order
        simp
    | cons i more induction =>
        intro order
        apply (induction _).trans
        apply ((insert_index_perm keys order i).append_right more).trans
        exact List.perm_middle.symm
  have sorted := all (List.range keys.length) []
  rwa [List.nil_append] at sorted

/-! ## The format -/

/-- `g4_number` -/
def g4Number (d : ℚ) : Bytes := if IsLongLong d then Decimal.ofInt ⌊d⌋ else generalText 10 d

def g4Delimited (s : Bytes) : Bytes := g4Quote ++ (cString s ++ g4Quote)

/-- Texts behind each other with a comma between them. -/
def commaJoined : List Bytes → Bytes
  | [] => []
  | text :: texts => text ++ texts.flatMap fun more => comma :: more

mutual

/-- `g4_format_argument` -/
def g4FormatArgument (escapeKeys : Bool) : Jv → Bytes
  | .null => nullText
  | .bool b => if b then trueText else falseText
  | .num d => g4Number d
  | .str s => g4Delimited s
  | .arr items => lbracket :: (commaJoined (g4FormatEach escapeKeys items) ++ [rbracket])
  | .obj keys items =>
      let formatted := g4FormatEach escapeKeys items
      lbrace :: (commaJoined ((jvDictsort keys).map fun i =>
        (if escapeKeys then g4Delimited (keys.getD i []) else cString (keys.getD i [])) ++
          (colon :: formatted.getD i [])) ++ [rbrace])
termination_by structural v => v

def g4FormatEach (escapeKeys : Bool) : List Jv → List Bytes
  | [] => []
  | v :: items => g4FormatArgument escapeKeys v :: g4FormatEach escapeKeys items
termination_by structural items => items

end

/-! ## Values up to the order of members -/

mutual

/-- The same value, with the members of its objects in another order. -/
inductive Reordered : Jv → Jv → Prop
  | null : Reordered .null .null
  | bool (b : Bool) : Reordered (.bool b) (.bool b)
  | num (d : ℚ) : Reordered (.num d) (.num d)
  | str (s : Bytes) : Reordered (.str s) (.str s)
  | arr {items items' : List Jv} (each : ReorderedEach items items') :
      Reordered (.arr items) (.arr items')
  | obj {keys keys' : List Bytes} {items moved items' : List Jv}
      (beside : keys.length = items.length) (beside' : keys'.length = moved.length)
      (order : (keys.zip items).Perm (keys'.zip moved)) (each : ReorderedEach moved items') :
      Reordered (.obj keys items) (.obj keys' items')

inductive ReorderedEach : List Jv → List Jv → Prop
  | nil : ReorderedEach [] []
  | cons {v v' : Jv} {items items' : List Jv} (here : Reordered v v')
      (later : ReorderedEach items items') : ReorderedEach (v :: items) (v' :: items')

end

/-! ## What the format asks of a value -/

/-- Letters, digits and the underscore. -/
def isWordByte (c : UInt8) : Bool :=
  isDigit c || (0x41 ≤ c && c ≤ 0x5a) || (0x61 ≤ c && c ≤ 0x7a) || c == underscore

def Identifier (name : Bytes) : Prop := name ≠ [] ∧ ∀ c ∈ name, isWordByte c = true

mutual

/-- No string holds the delimiter, every key is an identifier, and every number is printed so
that it is read back. -/
def Formats : Jv → Prop
  | .null => True
  | .bool _ => True
  | .num d => Reprints d
  | .str s => ¬g4Quote <:+: s
  | .arr items => FormatsEach items
  | .obj keys items => (∀ key ∈ keys, Identifier key) ∧ FormatsEach items
termination_by structural v => v

def FormatsEach : List Jv → Prop
  | [] => True
  | v :: items => Formats v ∧ FormatsEach items
termination_by structural items => items

end

mutual

/-- What a parsed value is: strings survive a string, keys are distinct and stand beside the
values, and the nesting fits. -/
def Parsed : Nat → Jv → Prop
  | room, .null => 0 < room
  | room, .bool _ => 0 < room
  | room, .num _ => 0 < room
  | room, .str s => 0 < room ∧ Clean s
  | room, .arr items => 0 < room ∧ ParsedEach (room - 1) items
  | room, .obj keys items =>
      0 < room ∧ keys.length = items.length ∧ keys.Nodup ∧ ParsedEach (room - 1) items
termination_by structural _ v => v

def ParsedEach : Nat → List Jv → Prop
  | _, [] => True
  | room, v :: items => Parsed room v ∧ ParsedEach room items
termination_by structural _ items => items

end

theorem parsed_each_iff (room : Nat) (items : List Jv) :
    ParsedEach room items ↔ ∀ v ∈ items, Parsed room v := by
  induction items with
  | nil => simp [ParsedEach]
  | cons v items induction => simp [ParsedEach, induction]

theorem format_each_map (escapeKeys : Bool) (items : List Jv) :
    g4FormatEach escapeKeys items = items.map (g4FormatArgument escapeKeys) := by
  induction items with
  | nil => rfl
  | cons v items induction => rw [g4FormatEach, induction, List.map_cons]

mutual

theorem doc_parsed : ∀ (doc : Doc) (room : Nat), doc.fine room = true → Parsed room doc.jv
  | .leaf scalar, room, fine => by
      simp only [Doc.fine, Bool.and_eq_true, decide_eq_true_eq] at fine
      cases scalar with
      | literal name => cases name <;> exact fine.1
      | number numeral => exact fine.1
      | string chars => exact ⟨fine.1, Pieces.clean ⟨chars, rfl, rfl, fine.2⟩⟩
  | .empty lid blank, room, fine => by
      simp only [Doc.fine, decide_eq_true_eq] at fine
      cases lid with
      | brace => exact ⟨fine, rfl, List.nodup_nil, trivial⟩
      | bracket => exact ⟨fine, trivial⟩
  | .full lid early label last trail, room, fine => by
      have nonzero : 0 < room := by
        cases room with
        | zero => rw [doc_fine_zero] at fine; cases fine
        | succ room => exact Nat.succ_pos room
      have keys := (body_fine_iff early (room - 1)).mp
      simp only [Doc.fine, Bool.and_eq_true] at fine
      obtain ⟨⟨earlyFine, labelFine⟩, lastFine⟩ := fine
      have front := body_parsed early (room - 1) earlyFine
      have back := doc_parsed last (room - 1) lastFine
      have each : ParsedEach (room - 1) (early.items ++ [last.jv]) := by
        rw [parsed_each_iff] at front ⊢
        intro v inside
        rcases List.mem_append.mp inside with here | there
        · exact front v here
        · rw [List.mem_singleton.mp there]
          exact back
      have beside := body_beside (.snoc early label last trail)
      cases lid with
      | bracket => exact ⟨nonzero, each⟩
      | brace =>
          have distinct := (label_fine_iff label (keys earlyFine).2.2).mp labelFine
          exact ⟨nonzero, beside, distinct.2, each⟩

theorem body_parsed : ∀ {lid : Lid} (body : Body lid) (room : Nat), body.fine room = true →
    ParsedEach room body.items
  | _, .none _, _, _ => trivial
  | _, .snoc front label doc trail, room, fine => by
      simp only [Body.fine, Bool.and_eq_true] at fine
      have early := body_parsed front room fine.1.1
      have own := doc_parsed doc room fine.2
      rw [Body.items]
      rw [parsed_each_iff] at early ⊢
      intro v inside
      rcases List.mem_append.mp inside with here | there
      · exact early v here
      · rw [List.mem_singleton.mp there]
        exact own

end

/-! ## One value -/

/-- The value is written as this native value, which is read as this document. -/
structure FormatsAs (room : Nat) (v : Jv) (native : Native) (doc : Doc) : Prop where
  spelling : native.spelling = g4FormatArgument false v
  fits : native.Fits room
  text : doc.text = native.json
  valid : doc.Valid
  depth : doc.depth ≤ room
  same : Reordered v doc.jv

/-- One entry of a container: what is written of it, and what is read. -/
structure FormatEntry (lid : Lid) (room : Nat) where
  value : Jv
  native : Native
  doc : Doc
  formats : FormatsAs room value native doc
  written : NativeLabel lid
  label : Label lid
  labelText : label.text = written.json
  labelValid : label.Valid
  opens : written.Opens

theorem comma_joined_snoc (texts : List Bytes) (text : Bytes) :
    commaJoined (texts ++ [text]) =
      commaJoined texts ++ ((if texts.isEmpty then [] else [comma]) ++ text) := by
  cases texts <;> simp [commaJoined]

theorem entries_text_joined {lid : Lid} (docs : List (Label lid × Doc)) :
    entriesText true docs = commaJoined (docs.map fun entry => entry.1.text ++ entry.2.text) := by
  induction docs using List.reverseRecOn with
  | nil => rfl
  | append_singleton docs entry induction =>
      rw [entries_text_append, induction, List.map_append, List.map_singleton, comma_joined_snoc]
      cases docs <;> simp [entriesText]

/-- Entries of the grammar from a list of them. -/
theorem native_entries {lid : Lid} {room : Nat} (list : List (FormatEntry lid room)) :
    ∃ entries : Entries lid,
      entries.spelling = commaJoined (list.map fun entry =>
        entry.written.spelling ++ entry.native.spelling) ∧
      entries.json = commaJoined (list.map fun entry => entry.written.json ++ entry.native.json) ∧
      entries.isNone = list.isEmpty ∧ entries.Fits room := by
  induction list using List.reverseRecOn with
  | nil => exact ⟨.none lid, rfl, rfl, rfl, trivial⟩
  | append_singleton list entry induction =>
      obtain ⟨front, spelling, json, none_, fits⟩ := induction
      refine ⟨.snoc front entry.written entry.native, ?_, ?_, ?_,
        fits, fun _ => entry.opens, entry.formats.fits⟩
      · rw [Entries.spelling, spelling, none_, List.map_append, List.map_singleton,
          comma_joined_snoc, List.isEmpty_map]
      · rw [Entries.json, json, none_, List.map_append, List.map_singleton, comma_joined_snoc,
          List.isEmpty_map]
      · simp [Entries.isNone]

/-- A container of entries is written and read as a container. -/
theorem container_formats {lid : Lid} {room : Nat} (list : List (FormatEntry lid room))
    (distinct : (list.flatMap fun entry => entry.label.keys).Nodup) :
    ∃ (native : Native) (doc : Doc), native.spelling = lid.opener :: (commaJoined (list.map fun entry =>
        entry.written.spelling ++ entry.native.spelling) ++ [lid.closer]) ∧
      native.Fits (room + 1) ∧ doc.text = native.json ∧ doc.Valid ∧ doc.depth ≤ room + 1 ∧
      doc.jv = lid.jv (list.flatMap fun entry => entry.label.keys)
        (list.map fun entry => entry.doc.jv) := by
  obtain ⟨entries, spelling, json, _, fits⟩ := native_entries list
  obtain ⟨doc, text, value, valid, depth⟩ :=
    container_doc (list.map fun entry => (entry.label, entry.doc))
  have keys : entryKeys (list.map fun entry => (entry.label, entry.doc)) =
      list.flatMap fun entry => entry.label.keys := by
    rw [entryKeys, List.flatMap_map]
  have items : entryItems (list.map fun entry => (entry.label, entry.doc)) =
      list.map fun entry => entry.doc.jv := by
    rw [entryItems, List.map_map]
    rfl
  refine ⟨.full lid entries, doc, ?_, ⟨Nat.succ_pos room, fits⟩, ?_, ?_, ?_, ?_⟩
  · rw [Native.spelling, spelling]
  · rw [text, Native.json, json, entries_text_joined, List.map_map]
    congr 3
    apply List.map_congr_left
    intro entry _
    simp only [Function.comp_apply]
    rw [entry.labelText, entry.formats.text]
  · apply valid
    · intro pair inside
      obtain ⟨entry, _, rfl⟩ := List.mem_map.mp inside
      exact ⟨entry.labelValid, entry.formats.valid⟩
    · rw [keys]
      exact distinct
  · apply depth
    intro pair inside
    obtain ⟨entry, _, rfl⟩ := List.mem_map.mp inside
    exact entry.formats.depth
  · rw [value, keys, items]

theorem word_byte {c : UInt8} (word : isWordByte c = true) :
    PlainByte c ∧ StandsRaw c ∧ c ≠ colon ∧ c ≠ lbrace ∧ c ≠ rbrace := by
  simp only [isWordByte, isDigit, Bool.or_eq_true, Bool.and_eq_true, beq_iff_eq,
    decide_eq_true_eq] at word
  simp only [PlainByte, StandsRaw, quote, backslash, colon, lbrace, rbrace]
  rcases word with ((digit | upper) | lower) | rfl
  · grind
  · grind
  · grind
  · decide

theorem identifier_clean {name : Bytes} (identifier : Identifier name) : Clean name :=
  clean_plain fun c inside => (word_byte (identifier.2 c inside)).1

/-- The label of an identifier. -/
theorem key_label {key : Bytes} (identifier : Identifier key) :
    ∃ (written : NativeLabel .brace) (label : Label .brace),
      written.spelling = key ++ [colon] ∧ label.text = written.json ∧ label.Valid ∧
        label.keys = [key] ∧ written.Opens := by
  obtain ⟨some_, word⟩ := identifier
  obtain ⟨chars, text, decode, fine⟩ := (identifier_clean ⟨some_, word⟩).pieces
  refine ⟨.member ⟨key, some_, fun c inside => (word_byte (word c inside)).2.2.1⟩, bareLabel chars,
    rfl, ?_, fine, ?_, ?_⟩
  · rw [bare_label_text, text]
    rfl
  · rw [bare_label_keys, decode]
  · intro closes
    have inside : rbrace ∈ key := List.mem_of_mem_head? closes
    exact (word_byte (word rbrace inside)).2.2.2.2 rfl

/-! ## The whole value -/

theorem leaf_depth {room : Nat} (nonzero : 0 < room) (scalar : Scalar) :
    (Doc.leaf scalar).depth ≤ room := nonzero

theorem number_formats {room : Nat} {d : ℚ} (nonzero : 0 < room) (reprints : Reprints d) :
    ∃ native doc, FormatsAs room (.num d) native doc := by
  obtain ⟨numeral, text, _⟩ := dump_number_numeral d
  have numeric : ∀ c ∈ numeral.text, isNumberByte c = true := by
    apply numeral_bytes (fun c => isNumberByte c = true) numeral
    · intro c digit
      simp [isNumberByte, digit]
    · decide +kernel
  have some_ : numeral.text ≠ [] := by
    obtain ⟨c, s, shape, _⟩ := numeral_head numeral
    rw [shape]
    exact List.cons_ne_nil c s
  refine ⟨.run numeral.text some_ numeric, .leaf (.number numeral), text, trivial, rfl, ?_,
    leaf_depth nonzero _, ?_⟩
  · change inRange numeral.text = true
    rw [text]
    exact reprints.1
  · rw [Doc.jv, Scalar.jv, text, reprints.2]
    exact .num d

theorem string_formats {room : Nat} {s : Bytes} (nonzero : 0 < room) (clean : Clean s)
    (free : ¬g4Quote <:+: s) : ∃ native doc, FormatsAs room (.str s) native doc := by
  obtain ⟨chars, text, decode, fine⟩ := clean.pieces
  refine ⟨.text s free, .leaf (.string chars), ?_, trivial, ?_, fine, leaf_depth nonzero _, ?_⟩
  · rw [Native.spelling, g4FormatArgument, g4Delimited, c_string_whole clean.nulFree]
  · rw [Doc.text, Scalar.text, text]
    rfl
  · rw [Doc.jv, Scalar.jv, decode]
    exact .str s

/-- Items that can be written are entries of an array. -/
theorem item_entries {room : Nat} : ∀ items : List Jv,
    (∀ v ∈ items, ∃ native doc, FormatsAs room v native doc) →
    ∃ list : List (FormatEntry .bracket room),
      (list.map fun entry => entry.written.spelling ++ entry.native.spelling) =
          items.map (g4FormatArgument false) ∧
        (list.flatMap fun entry => entry.label.keys) = [] ∧
        ReorderedEach items (list.map fun entry => entry.doc.jv)
  | [], _ => ⟨[], rfl, rfl, .nil⟩
  | v :: items, all => by
      obtain ⟨list, spelling, keys, each⟩ := item_entries items fun w inside =>
        all w (List.mem_cons_of_mem v inside)
      obtain ⟨native, doc, formats⟩ := all v List.mem_cons_self
      refine ⟨⟨v, native, doc, formats, .item, bareItem, rfl, trivial, trivial⟩ :: list, ?_, ?_, ?_⟩
      · rw [List.map_cons, spelling, List.map_cons, formats.spelling]
        rfl
      · rw [List.flatMap_cons, keys]
        rfl
      · exact .cons formats.same each

/-- Members that can be written are entries of an object. -/
theorem member_entries (room : Nat) : ∀ members : List (Bytes × Jv),
    (∀ member ∈ members, Identifier member.1 ∧
      ∃ native doc, FormatsAs room member.2 native doc) →
    ∃ list : List (FormatEntry .brace room),
      (list.map fun entry => entry.written.spelling ++ entry.native.spelling) =
          (members.map fun member => member.1 ++ (colon :: g4FormatArgument false member.2)) ∧
        (list.flatMap fun entry => entry.label.keys) = members.map Prod.fst ∧
        ReorderedEach (members.map Prod.snd) (list.map fun entry => entry.doc.jv)
  | [], _ => ⟨[], rfl, rfl, .nil⟩
  | (key, v) :: members, all => by
      obtain ⟨list, spelling, keys, each⟩ := member_entries room members fun other inside =>
        all other (List.mem_cons_of_mem _ inside)
      obtain ⟨identifier, native, doc, formats⟩ := all (key, v) List.mem_cons_self
      obtain ⟨written, label, spelled, text, valid, own, opens⟩ := key_label identifier
      refine ⟨⟨v, native, doc, formats, written, label, text, valid, opens⟩ :: list, ?_, ?_, ?_⟩
      · rw [List.map_cons, spelling, List.map_cons, formats.spelling, spelled]
        simp
      · rw [List.flatMap_cons, keys, own]
        rfl
      · exact .cons formats.same each

/-- The members in the order they are written. -/
def sortedMembers (keys : List Bytes) (items : List Jv) : List (Bytes × Jv) :=
  (jvDictsort keys).map fun i => (keys.getD i [], items.getD i .null)

theorem sorted_members_perm {keys : List Bytes} {items : List Jv}
    (beside : keys.length = items.length) : (keys.zip items).Perm (sortedMembers keys items) := by
  have same : (List.range keys.length).map (fun i => (keys.getD i [], items.getD i .null)) =
      keys.zip items := by
    apply List.ext_getElem
    · simp [beside]
    · intro i inside inside'
      simp only [List.length_map, List.length_range] at inside
      have other : i < items.length := by omega
      simp [inside, other]
  rw [← same]
  exact ((dictsort_perm keys).map _).symm

theorem members_spelling {keys : List Bytes} {items : List Jv}
    (beside : keys.length = items.length) (identifiers : ∀ key ∈ keys, Identifier key) :
    ((jvDictsort keys).map fun i => cString (keys.getD i []) ++
        (colon :: (g4FormatEach false items).getD i [])) =
      (sortedMembers keys items).map fun member =>
        member.1 ++ (colon :: g4FormatArgument false member.2) := by
  rw [sortedMembers, List.map_map]
  apply List.map_congr_left
  intro i inside
  have bound : i < keys.length := by
    have member := (dictsort_perm keys).mem_iff.mp inside
    exact List.mem_range.mp member
  have other : i < items.length := by omega
  have key : keys.getD i [] ∈ keys := by
    have same : keys.getD i [] = keys[i] := by simp [bound]
    rw [same]
    exact List.getElem_mem bound
  have whole : cString (keys.getD i []) = keys.getD i [] :=
    c_string_whole (identifier_clean (identifiers _ key)).nulFree
  rw [whole]
  simp [format_each_map, other]

mutual

/-- A value is written as a native value that is read as the value with its members in another
order. -/
theorem value_formats : ∀ (v : Jv) (room : Nat), Formats v → Parsed room v →
    ∃ native doc, FormatsAs room v native doc
  | .null, room, _, parsed =>
      ⟨.word .null, .leaf (.literal .null), rfl, trivial, rfl, trivial, parsed, .null⟩
  | .bool true, room, _, parsed =>
      ⟨.word .true, .leaf (.literal .true), rfl, trivial, rfl, trivial, parsed, .bool true⟩
  | .bool false, room, _, parsed =>
      ⟨.word .false, .leaf (.literal .false), rfl, trivial, rfl, trivial, parsed, .bool false⟩
  | .num d, room, formats, parsed => number_formats parsed formats
  | .str s, room, formats, parsed => string_formats parsed.1 parsed.2 formats
  | .arr items, room, formats, parsed => by
      obtain ⟨nonzero, each⟩ := parsed
      obtain ⟨list, spelling, keys, same⟩ :=
        item_entries items (each_formats items (room - 1) formats each)
      obtain ⟨native, doc, spelled, fits, text, valid, depth, value⟩ :=
        container_formats list (by rw [keys]; exact List.nodup_nil)
      rw [Nat.sub_add_cancel nonzero] at fits depth
      refine ⟨native, doc, ?_, fits, text, valid, depth, ?_⟩
      · rw [spelled, spelling, g4FormatArgument, format_each_map]
        rfl
      · rw [value]
        exact .arr same
  | .obj keys items, room, formats, parsed => by
      obtain ⟨identifiers, formatsEach⟩ := formats
      obtain ⟨nonzero, beside, distinct, each⟩ := parsed
      have inner := each_formats items (room - 1) formatsEach each
      have order := sorted_members_perm beside
      obtain ⟨list, spelling, names, same⟩ := member_entries (room - 1)
        (sortedMembers keys items) fun member inside =>
          have pair := List.of_mem_zip (order.mem_iff.mpr inside)
          ⟨identifiers _ pair.1, inner _ pair.2⟩
      have sortedKeys : ((sortedMembers keys items).map Prod.fst).Perm keys := by
        have firsts := (order.map Prod.fst).symm
        rwa [List.map_fst_zip (Nat.le_of_eq beside)] at firsts
      obtain ⟨native, doc, spelled, fits, text, valid, depth, value⟩ :=
        container_formats list (by rw [names]; exact sortedKeys.nodup_iff.mpr distinct)
      rw [Nat.sub_add_cancel nonzero] at fits depth
      refine ⟨native, doc, ?_, fits, text, valid, depth, ?_⟩
      · rw [spelled, spelling, g4FormatArgument]
        simp only [Bool.false_eq_true, if_false, members_spelling beside identifiers]
        rfl
      · rw [value, names]
        refine .obj beside (by simp) ?_ same
        rw [List.zip_map']
        simpa using order

theorem each_formats : ∀ (items : List Jv) (room : Nat), FormatsEach items →
    ParsedEach room items → ∀ v ∈ items, ∃ native doc, FormatsAs room v native doc
  | [], _, _, _ => by
      intro v never
      cases never
  | v :: items, room, formats, parsed => by
      intro w inside
      rcases List.mem_cons.mp inside with same | later
      · rw [same]
        exact value_formats v room formats.1 parsed.1
      · exact each_formats items room formats.2 parsed.2 w later

end

end GridcoreRunner.Template
