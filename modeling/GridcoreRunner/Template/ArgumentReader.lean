import Mathlib.Data.List.TakeWhile
import GridcoreRunner.Json.Escape
import GridcoreRunner.Json.ReadBack
import GridcoreRunner.Compaction

/-!
# Reading native arguments

The argument syntax of the Gemma 4 family has bare keys and strings between delimiters of
their own. `g4_json_value` reads it and writes JSON. It reads the texts of a grammar, up to
the first byte that the grammar has no use for.
-/

namespace GridcoreRunner.Template

set_option autoImplicit false

open GridcoreRunner.Json

/-- `<|"|>` -/
def g4Quote : Bytes := [0x3c, 0x7c, 0x22, 0x7c, 0x3e]

def g4MaxDepth : Nat := 128

/-! ## The reader

A reader takes what is left of the document and answers what it writes and what is left
behind it; it refuses where the source returns `false`. -/

abbrev Reader := Bytes → Outcome (Bytes × Bytes)

/-- `g4_json_string`, the cursor at the opening delimiter. -/
def g4JsonString : Reader := fun s =>
  let p := s.drop g4Quote.length
  match Text.firstHit [g4Quote] p with
  | none => .refused
  | some (close, _) =>
      .done (quote :: (sbEsc (p.take close) ++ [quote]), p.drop (close + g4Quote.length))

/-- The key of a member and its colon. -/
def g4Key : Reader := fun s =>
  let key := s.takeWhile (· != colon)
  match s.dropWhile (· != colon) with
  | [] => .refused
  | _ :: p =>
      if key = [] then .refused else .done (quote :: (sbEsc key ++ [quote, colon]), p)

/-- What `g4_json_object` reads in front of a value and `g4_json_array` does not. -/
def g4Label : Lid → Reader
  | .brace => g4Key
  | .bracket => fun s => .done ([], s)

/-- The `while` of both containers. -/
def g4Loop (value : Reader) (lid : Lid) : Nat → Bool → Bytes → Bytes → Outcome (Bytes × Bytes)
  | 0, _, _, _ => .wrong
  | _ + 1, _, [], _ => .refused
  | rounds + 1, first, c :: s, out =>
      if c = lid.closer then .done (out ++ [lid.closer], s)
      else if !first && c != comma then .refused
      else
        (g4Label lid (if first then c :: s else s)).bind fun (label, s) =>
          (value s).bind fun (text, s) =>
            g4Loop value lid rounds false s
              ((if first then out else out ++ [comma]) ++ (label ++ text))

/-- A container past its opening byte; without `inside` the depth is used up. Each round reads
at least one byte. -/
def g4Container (inside : Option Reader) (lid : Lid) : Reader := fun s =>
  match inside with
  | none => .refused
  | some value => g4Loop value lid (s.length + 1) true s [lid.opener]

/-- `strchr("+-.eE", *q) || (*q >= '0' && *q <= '9')`; `strchr` finds the NUL too. -/
def isNumberByte (c : UInt8) : Bool :=
  c == plus || c == minus || c == dot || c == letterE || c == capitalE || c == 0 || isDigit c

def g4Run : Reader := fun s =>
  let run := s.takeWhile isNumberByte
  if run = [] then .refused else .done (run, s.dropWhile isNumberByte)

/-- `g4_json_value` with what it calls for a nested container. -/
def g4ValueWith (inside : Option Reader) : Reader
  | [] => .refused
  | c :: s =>
      if g4Quote <+: c :: s then g4JsonString (c :: s)
      else if c = lbrace then g4Container inside .brace s
      else if c = lbracket then g4Container inside .bracket s
      else if trueText <+: c :: s then .done (trueText, (c :: s).drop trueText.length)
      else if falseText <+: c :: s then .done (falseText, (c :: s).drop falseText.length)
      else if nullText <+: c :: s then .done (nullText, (c :: s).drop nullText.length)
      else g4Run (c :: s)

/-- `g4_json_value`; `room` is `G4_MAX_DEPTH - depth`. -/
def g4JsonValue : Nat → Reader
  | 0 => g4ValueWith none
  | room + 1 => g4ValueWith (some (g4JsonValue room))

def g4Inside : Nat → Option Reader
  | 0 => none
  | room + 1 => some (g4JsonValue room)

theorem g4_json_value_inside (room : Nat) : g4JsonValue room = g4ValueWith (g4Inside room) := by
  cases room <;> rfl

/-- `g4_json_object` past its opening brace. -/
def g4JsonObject (room : Nat) : Reader := g4Container (g4Inside room) .brace

/-! ## The grammar -/

/-- A key ends at the first colon and is not empty. -/
abbrev NativeKey := { key : Bytes // key ≠ [] ∧ ∀ c ∈ key, c ≠ colon }

inductive NativeLabel : Lid → Type
  | item : NativeLabel .bracket
  | member (key : NativeKey) : NativeLabel .brace

def NativeLabel.spelling : {lid : Lid} → NativeLabel lid → Bytes
  | _, .item => []
  | _, .member key => key.val ++ [colon]

def NativeLabel.json : {lid : Lid} → NativeLabel lid → Bytes
  | _, .item => []
  | _, .member key => quote :: (sbEsc key.val ++ [quote, colon])

mutual

/-- A native value: a string without its delimiter, a word, a run of number bytes or a
container. -/
inductive Native
  | text (s : Bytes) (free : ¬g4Quote <:+: s)
  | word (name : Literal)
  | run (digits : Bytes) (some_ : digits ≠ []) (numeric : ∀ c ∈ digits, isNumberByte c = true)
  | full (lid : Lid) (entries : Entries lid)

inductive Entries : Lid → Type
  | none (lid : Lid) : Entries lid
  | snoc {lid : Lid} (front : Entries lid) (label : NativeLabel lid) (value : Native) : Entries lid

end

def Native.isRun : Native → Bool
  | .run _ _ _ => true
  | _ => false

def Entries.isNone : {lid : Lid} → Entries lid → Bool
  | _, .none _ => true
  | _, .snoc _ _ _ => false

def Entries.size : {lid : Lid} → Entries lid → Nat
  | _, .none _ => 0
  | _, .snoc front _ _ => front.size + 1

mutual

def Native.spelling : Native → Bytes
  | .text s _ => g4Quote ++ (s ++ g4Quote)
  | .word name => name.text
  | .run digits _ _ => digits
  | .full lid entries => lid.opener :: (entries.spelling ++ [lid.closer])

def Entries.spelling : {lid : Lid} → Entries lid → Bytes
  | _, .none _ => []
  | _, .snoc front label value =>
      front.spelling ++ ((if front.isNone then [] else [comma]) ++ (label.spelling ++ value.spelling))

end

mutual

/-- What the reader writes for the value. -/
def Native.json : Native → Bytes
  | .text s _ => quote :: (sbEsc s ++ [quote])
  | .word name => name.text
  | .run digits _ _ => digits
  | .full lid entries => lid.opener :: (entries.json ++ [lid.closer])

def Entries.json : {lid : Lid} → Entries lid → Bytes
  | _, .none _ => []
  | _, .snoc front label value =>
      front.json ++ ((if front.isNone then [] else [comma]) ++ (label.json ++ value.json))

end

/-- The key of the first member does not begin with the brace that closes the object. -/
def NativeLabel.Opens : {lid : Lid} → NativeLabel lid → Prop
  | _, .item => True
  | _, .member key => key.val.head? ≠ some rbrace

mutual

/-- The containers fit into the depth that is left. -/
def Native.Fits : Nat → Native → Prop
  | _, .text _ _ => True
  | _, .word _ => True
  | _, .run _ _ _ => True
  | room, .full _ entries => 0 < room ∧ entries.Fits (room - 1)

def Entries.Fits : {lid : Lid} → Nat → Entries lid → Prop
  | _, _, .none _ => True
  | _, room, .snoc front label value =>
      front.Fits room ∧ (front.isNone = true → label.Opens) ∧ value.Fits room

end

/-- No number goes on behind the value. -/
def RunEnds (rest : Bytes) : Prop := ∀ c, rest.head? = some c → isNumberByte c = false

mutual

/-- The runs of number bytes. -/
def Native.runs : Native → List Bytes
  | .text _ _ => []
  | .word _ => []
  | .run digits _ _ => [digits]
  | .full _ entries => entries.runs

def Entries.runs : {lid : Lid} → Entries lid → List Bytes
  | _, .none _ => []
  | _, .snoc front _ value => front.runs ++ value.runs

end

/-! ## What the grammar spells is read -/

theorem g4_quote_unbordered : Compaction.Unbordered g4Quote := by
  decide

theorem unquoted_start {c : UInt8} (other : c ≠ 0x3c) (s : Bytes) : ¬g4Quote <+: c :: s := by
  intro begins
  exact other (List.cons_prefix_cons.mp begins).1.symm

theorem unworded_start {w c : UInt8} {word : Bytes} (other : c ≠ w) (s : Bytes) :
    ¬w :: word <+: c :: s := by
  intro begins
  exact other (List.cons_prefix_cons.mp begins).1.symm

theorem g4_string_reads (inside : Option Reader) {s : Bytes} (free : ¬g4Quote <:+: s)
    (rest : Bytes) : g4ValueWith inside (g4Quote ++ (s ++ g4Quote) ++ rest) =
      .done (quote :: (sbEsc s ++ [quote]), rest) := by
  have hit := g4_quote_unbordered.first_hit (List.cons_ne_nil _ _) free rest
  have begins : g4Quote <+: g4Quote ++ (s ++ (g4Quote ++ rest)) := List.prefix_append _ _
  have dispatch : g4ValueWith inside (g4Quote ++ (s ++ (g4Quote ++ rest))) =
      g4JsonString (g4Quote ++ (s ++ (g4Quote ++ rest))) := by
    rw [g4Quote, List.cons_append, g4ValueWith]
    exact if_pos begins
  rw [List.append_assoc, List.append_assoc, dispatch, g4JsonString, List.drop_left]
  simp only [hit, List.take_left]
  rw [← List.drop_drop, List.drop_left, List.drop_left]

theorem g4_word_reads (inside : Option Reader) (name : Literal) (rest : Bytes) :
    g4ValueWith inside (name.text ++ rest) = .done (name.text, rest) := by
  cases name <;>
    simp +decide [g4ValueWith, Literal.text, trueText, falseText, nullText, g4Quote]

/-- A number byte begins nothing else. -/
theorem number_byte_only {c : UInt8} (numeric : isNumberByte c = true) :
    c ≠ 0x3c ∧ c ≠ lbrace ∧ c ≠ lbracket ∧ c ≠ letterT ∧ c ≠ letterF ∧ c ≠ letterN ∧
      c ≠ rbracket := by
  refine ⟨?_, ?_, ?_, ?_, ?_, ?_, ?_⟩ <;>
  · intro same
    rw [same] at numeric
    cases numeric

theorem g4_run_reads (inside : Option Reader) {digits : Bytes} (some_ : digits ≠ [])
    (numeric : ∀ c ∈ digits, isNumberByte c = true) {rest : Bytes} (ends : RunEnds rest) :
    g4ValueWith inside (digits ++ rest) = .done (digits, rest) := by
  have taken : (digits ++ rest).takeWhile isNumberByte = digits := by
    rw [List.takeWhile_append_of_pos numeric]
    cases rest with
    | nil => simp
    | cons c rest => simp [ends c rfl]
  have left : (digits ++ rest).dropWhile isNumberByte = rest := by
    rw [List.dropWhile_append_of_pos numeric]
    cases rest with
    | nil => rfl
    | cons c rest => simp [ends c rfl]
  cases digits with
  | nil => exact absurd rfl some_
  | cons c digits =>
      obtain ⟨notQuote, notBrace, notBracket, notTrue, notFalse, notNull, _⟩ :=
        number_byte_only (numeric c List.mem_cons_self)
      rw [List.cons_append] at taken left ⊢
      rw [g4ValueWith, if_neg (unquoted_start notQuote _), if_neg notBrace, if_neg notBracket,
        trueText, if_neg (unworded_start notTrue _), falseText, if_neg (unworded_start notFalse _),
        nullText, if_neg (unworded_start notNull _), g4Run, taken, left, if_neg some_]

theorem opener_value (inside : Option Reader) (lid : Lid) (s : Bytes) :
    g4ValueWith inside (lid.opener :: s) = g4Container inside lid s := by
  cases lid with
  | brace => rw [g4ValueWith, if_neg (unquoted_start (by decide) s)]; rfl
  | bracket => rw [g4ValueWith, if_neg (unquoted_start (by decide) s)]; rfl

/-- A value begins with no closing bracket. -/
theorem native_head (value : Native) : ∃ c s, value.spelling = c :: s ∧ c ≠ rbracket := by
  cases value with
  | text s free => exact ⟨_, _, rfl, by decide⟩
  | word name => cases name <;> exact ⟨_, _, rfl, by decide⟩
  | run digits some_ numeric =>
      cases digits with
      | nil => exact absurd rfl some_
      | cons c digits =>
          obtain ⟨_, _, _, _, _, _, solid⟩ := number_byte_only (numeric c List.mem_cons_self)
          exact ⟨c, digits, rfl, solid⟩
  | full lid entries => cases lid <;> exact ⟨_, _, rfl, by decide⟩

theorem label_reads {lid : Lid} (label : NativeLabel lid) (s : Bytes) :
    g4Label lid (label.spelling ++ s) = .done (label.json, s) := by
  cases label with
  | item => rfl
  | member key =>
      obtain ⟨key, some_, plain⟩ := key
      have here : ∀ c ∈ key, (c != colon) = true := by
        intro c inside
        simpa using plain c inside
      have taken : (key ++ colon :: s).takeWhile (· != colon) = key := by
        rw [List.takeWhile_append_of_pos here]
        simp
      have left : (key ++ colon :: s).dropWhile (· != colon) = colon :: s := by
        rw [List.dropWhile_append_of_pos here]
        simp
      simp only [NativeLabel.spelling, List.append_assoc, List.singleton_append, g4Label, g4Key,
        taken, left, if_neg some_, NativeLabel.json]

/-- What stands between two entries. -/
def entrySeparator (first : Bool) : Bytes := if first then [] else [comma]

/-- One round of the loop. -/
theorem entry_reads {reader : Reader} {lid : Lid} {first : Bool} (label : NativeLabel lid)
    {value : Native} {s : Bytes} (opens : first = true → label.Opens)
    (reads : reader (value.spelling ++ s) = .done (value.json, s)) (rounds : Nat) (out : Bytes) :
    g4Loop reader lid (rounds + 1) first
        (entrySeparator first ++ (label.spelling ++ (value.spelling ++ s))) out =
      g4Loop reader lid rounds false s
        (out ++ (entrySeparator first ++ (label.json ++ value.json))) := by
  cases first with
  | false =>
      have solid : comma ≠ lid.closer := (closer_ne_comma lid).symm
      simp [entrySeparator, g4Loop, solid, label_reads, reads]
  | true =>
      have head : ∃ c tail, label.spelling ++ (value.spelling ++ s) = c :: tail ∧
          c ≠ lid.closer := by
        cases label with
        | item =>
            obtain ⟨c, tail, spelled, solid⟩ := native_head value
            exact ⟨c, tail ++ s, by simp [NativeLabel.spelling, spelled], solid⟩
        | member key =>
            obtain ⟨key, some_, plain⟩ := key
            cases key with
            | nil => exact absurd rfl some_
            | cons c key =>
                refine ⟨c, _, rfl, ?_⟩
                intro same
                exact opens rfl (congrArg some same)
      obtain ⟨c, tail, spelled, solid⟩ := head
      have labelled := label_reads label (value.spelling ++ s)
      rw [spelled] at labelled
      simp [entrySeparator, spelled, g4Loop, solid, labelled, reads]

theorem run_ends_comma (s : Bytes) : RunEnds (comma :: s) := by
  intro c head
  rw [List.head?_cons, Option.some.injEq] at head
  rw [← head]
  decide

theorem run_ends_closer (lid : Lid) (s : Bytes) : RunEnds (lid.closer :: s) := by
  intro c head
  rw [List.head?_cons, Option.some.injEq] at head
  rw [← head]
  cases lid <;> decide

theorem entries_size {lid : Lid} : ∀ entries : Entries lid, entries.size ≤ entries.spelling.length
  | .none _ => Nat.zero_le _
  | .snoc front label value => by
      have early := entries_size front
      obtain ⟨c, s, spelled, _⟩ := native_head value
      simp only [Entries.size, Entries.spelling, List.length_append, spelled, List.length_cons]
      omega

mutual

/-- A value of the grammar is read to its end, a number to its last digit. -/
theorem native_reads : ∀ (value : Native) (room : Nat) (rest : Bytes), value.Fits room →
    (value.isRun = true → RunEnds rest) →
    g4JsonValue room (value.spelling ++ rest) = .done (value.json, rest)
  | .text s free, room, rest, _, _ => by
      rw [g4_json_value_inside]
      exact g4_string_reads _ free rest
  | .word name, room, rest, _, _ => by
      rw [g4_json_value_inside]
      exact g4_word_reads _ name rest
  | .run digits some_ numeric, room, rest, _, ends => by
      rw [g4_json_value_inside]
      exact g4_run_reads _ some_ numeric (ends rfl)
  | .full lid entries, room, rest, fits, _ => by
      obtain ⟨deeper, fits⟩ := fits
      obtain ⟨room, rfl⟩ : ∃ less, room = less + 1 := ⟨room - 1, by omega⟩
      rw [Nat.add_sub_cancel] at fits
      have spelled : (Native.full lid entries).spelling ++ rest =
          lid.opener :: (entries.spelling ++ lid.closer :: rest) := by
        simp [Native.spelling]
      have closed : ∀ rounds first out, g4Loop (g4JsonValue room) lid (rounds + 1) first
          (lid.closer :: rest) out = .done (out ++ [lid.closer], rest) := by
        intro rounds first out
        rw [g4Loop, if_pos rfl]
      have size := entries_size entries
      obtain ⟨more, enough⟩ : ∃ more, (entries.spelling ++ lid.closer :: rest).length + 1 =
          entries.size + (more + 1) := by
        refine ⟨(entries.spelling ++ lid.closer :: rest).length - entries.size, ?_⟩
        rw [List.length_append]
        omega
      rw [spelled, g4_json_value_inside, opener_value]
      simp only [g4Inside, g4Container]
      rw [enough, entries_read entries room (more + 1) _ fits fun _ => run_ends_closer lid rest,
        closed]
      rfl

/-- Entries of the grammar are read one after another. -/
theorem entries_read : ∀ {lid : Lid} (entries : Entries lid) (room rounds : Nat) (s : Bytes),
    entries.Fits room → (entries.isNone = false → RunEnds s) →
    g4Loop (g4JsonValue room) lid (entries.size + rounds) true (entries.spelling ++ s)
        [lid.opener] =
      g4Loop (g4JsonValue room) lid rounds entries.isNone s (lid.opener :: entries.json)
  | _, .none lid, room, rounds, s, _, _ => by
      simp [Entries.size, Entries.spelling, Entries.isNone, Entries.json]
  | lid, .snoc front label value, room, rounds, s, fits, ends => by
      obtain ⟨early, opens, here⟩ := fits
      have reads := native_reads value room s here fun _ => ends rfl
      have round := entry_reads label opens reads rounds (lid.opener :: front.json)
      have before : front.isNone = false →
          RunEnds (entrySeparator front.isNone ++ (label.spelling ++ (value.spelling ++ s))) := by
        intro some_
        rw [some_]
        exact run_ends_comma _
      have first := entries_read front room (rounds + 1) _ early before
      rw [round] at first
      have size : (Entries.snoc front label value).size + rounds = front.size + (rounds + 1) := by
        rw [Entries.size]
        omega
      rw [size]
      simp only [Entries.spelling, Entries.json, Entries.isNone, List.append_assoc]
      exact first

end

/-! ## What is read is spelled by the grammar -/

/-- A reader that reads values of the grammar that fit. -/
def ReadsNative (room : Nat) (reader : Reader) : Prop :=
  ∀ s out rest, reader s = .done (out, rest) →
    ∃ value : Native, s = value.spelling ++ rest ∧ out = value.json ∧ value.Fits room

theorem label_native {lid : Lid} {s label rest : Bytes}
    (read : g4Label lid s = .done (label, rest)) :
    ∃ native : NativeLabel lid, s = native.spelling ++ rest ∧ label = native.json := by
  cases lid with
  | bracket =>
      cases read
      exact ⟨.item, rfl, rfl⟩
  | brace =>
      have whole := List.takeWhile_append_dropWhile (p := (· != colon)) (l := s)
      have plain : ∀ c ∈ s.takeWhile (· != colon), c ≠ colon := by
        intro c inside
        simpa using List.mem_takeWhile_imp inside
      simp only [g4Label, g4Key] at read
      cases left : s.dropWhile (· != colon) with
      | nil =>
          rw [left] at read
          cases read
      | cons c p =>
          have stopped : c = colon := by
            have head := List.head?_dropWhile_not (· != colon) s
            rw [left] at head
            simpa using head
          rw [left] at read whole
          by_cases empty : s.takeWhile (· != colon) = []
          · simp only [if_pos empty] at read
            cases read
          · simp only [if_neg empty] at read
            cases read
            refine ⟨.member ⟨s.takeWhile (· != colon), empty, plain⟩, ?_, rfl⟩
            rw [stopped] at whole
            rw [NativeLabel.spelling, List.append_assoc, List.singleton_append]
            exact whole.symm

/-- A first label does not begin with the closing byte. -/
theorem label_opens {lid : Lid} {label : NativeLabel lid} {c : UInt8} {s rest : Bytes}
    (solid : c ≠ lid.closer) (spelled : c :: s = label.spelling ++ rest) : label.Opens := by
  cases label with
  | item => trivial
  | member key =>
      obtain ⟨key, some_, plain⟩ := key
      cases key with
      | nil => exact absurd rfl some_
      | cons k key =>
          intro same
          apply solid
          rw [(List.cons.inj spelled).1]
          exact Option.some.inj same

/-- The loop reads entries until the closing byte. -/
theorem loop_native {room : Nat} {reader : Reader} (reads : ReadsNative room reader) {lid : Lid} :
    ∀ (rounds : Nat) (entries : Entries lid) (s out rest : Bytes), entries.Fits room →
      g4Loop reader lid rounds entries.isNone s (lid.opener :: entries.json) = .done (out, rest) →
      ∃ all : Entries lid, entries.spelling ++ s = all.spelling ++ lid.closer :: rest ∧
        out = lid.opener :: (all.json ++ [lid.closer]) ∧ all.Fits room := by
  intro rounds
  induction rounds with
  | zero =>
      intro entries s out rest _ run
      cases run
  | succ rounds induction =>
      intro entries s out rest fits run
      cases s with
      | nil => cases run
      | cons c s =>
          rw [g4Loop] at run
          by_cases closed : c = lid.closer
          · rw [if_pos closed] at run
            cases run
            exact ⟨entries, by rw [closed], rfl, fits⟩
          · rw [if_neg closed] at run
            by_cases bad : (!entries.isNone && c != comma) = true
            · rw [if_pos bad] at run
              cases run
            · rw [if_neg bad] at run
              obtain ⟨⟨labelText, p⟩, labelled, run⟩ := Outcome.bind_eq_done.mp run
              obtain ⟨⟨text, q⟩, valued, run⟩ := Outcome.bind_eq_done.mp run
              obtain ⟨label, labelSpelled, rfl⟩ := label_native labelled
              obtain ⟨value, valueSpelled, rfl, valueFits⟩ := reads _ _ _ valued
              simp only at labelSpelled valueSpelled run
              have opens : entries.isNone = true → label.Opens := by
                intro first
                rw [first] at labelSpelled
                exact label_opens closed labelSpelled
              have written : (if entries.isNone then lid.opener :: entries.json
                  else lid.opener :: entries.json ++ [comma]) ++ (label.json ++ value.json) =
                    lid.opener :: (entries.snoc label value).json := by
                rw [Entries.json]
                cases entries.isNone <;> simp
              rw [written] at run
              obtain ⟨all, spelled, same, allFits⟩ :=
                induction (entries.snoc label value) q out rest ⟨fits, opens, valueFits⟩ run
              refine ⟨all, ?_, same, allFits⟩
              rw [← spelled, Entries.spelling, List.append_assoc, List.append_assoc,
                List.append_assoc, ← valueSpelled, ← labelSpelled]
              cases first : entries.isNone with
              | true => rfl
              | false =>
                  rw [first] at bad
                  have separated : c = comma := by simpa using bad
                  rw [separated]
                  rfl

theorem container_native {room : Nat} {lid : Lid} {s out rest : Bytes}
    (reads : ∀ less, room = less + 1 → ReadsNative less (g4JsonValue less))
    (read : g4Container (g4Inside room) lid s = .done (out, rest)) :
    ∃ value : Native, lid.opener :: s = value.spelling ++ rest ∧ out = value.json ∧
      value.Fits room := by
  cases room with
  | zero => cases read
  | succ room =>
      obtain ⟨all, spelled, same, fits⟩ :=
        loop_native (reads room rfl) (s.length + 1) (.none lid) s out rest trivial read
      refine ⟨.full lid all, ?_, same, Nat.succ_pos room, fits⟩
      rw [Entries.spelling, List.nil_append] at spelled
      simp [Native.spelling, spelled]

theorem string_native {room : Nat} {s out rest : Bytes}
    (begins : g4Quote <+: s) (read : g4JsonString s = .done (out, rest)) :
    ∃ value : Native, s = value.spelling ++ rest ∧ out = value.json ∧ value.Fits room := by
  obtain ⟨p, rfl⟩ := begins
  rw [g4JsonString, List.drop_left] at read
  cases hit : Text.firstHit [g4Quote] p with
  | none =>
      rw [hit] at read
      cases read
  | some found =>
      obtain ⟨close, needle⟩ := found
      rw [hit] at read
      cases read
      obtain ⟨free, split⟩ := Compaction.first_hit_marker (List.cons_ne_nil _ _) hit
      refine ⟨.text (p.take close) free, ?_, rfl, trivial⟩
      simp only [Native.spelling, List.append_assoc]
      rw [List.append_cancel_left_eq]
      exact split

theorem word_native {room : Nat} {s rest word : Bytes} (name : Literal) (same : name.text = word)
    (begins : word <+: s) (left : rest = s.drop word.length) :
    ∃ value : Native, s = value.spelling ++ rest ∧ word = value.json ∧ value.Fits room := by
  obtain ⟨p, rfl⟩ := begins
  rw [List.drop_left] at left
  exact ⟨.word name, by rw [left, Native.spelling, same], by rw [Native.json, same], trivial⟩

theorem run_native {room : Nat} {s out rest : Bytes} (read : g4Run s = .done (out, rest)) :
    ∃ value : Native, s = value.spelling ++ rest ∧ out = value.json ∧ value.Fits room := by
  have whole := List.takeWhile_append_dropWhile (p := isNumberByte) (l := s)
  by_cases empty : s.takeWhile isNumberByte = []
  · simp only [g4Run, if_pos empty] at read
    cases read
  · simp only [g4Run, if_neg empty] at read
    cases read
    have numeric : ∀ c ∈ s.takeWhile isNumberByte, isNumberByte c = true :=
      fun c inside => List.mem_takeWhile_imp inside
    exact ⟨.run _ empty numeric, whole.symm, rfl, trivial⟩

/-- A value that is read is one of the grammar. -/
theorem read_native {room : Nat}
    (reads : ∀ less, room = less + 1 → ReadsNative less (g4JsonValue less)) :
    ReadsNative room (g4ValueWith (g4Inside room)) := by
  intro s out rest read
  cases s with
  | nil => cases read
  | cons c s =>
      rw [g4ValueWith] at read
      by_cases delimited : g4Quote <+: c :: s
      · rw [if_pos delimited] at read
        exact string_native delimited read
      rw [if_neg delimited] at read
      by_cases brace : c = lbrace
      · rw [if_pos brace] at read
        rw [brace]
        exact container_native reads read
      rw [if_neg brace] at read
      by_cases bracket : c = lbracket
      · rw [if_pos bracket] at read
        rw [bracket]
        exact container_native reads read
      rw [if_neg bracket] at read
      by_cases true_ : trueText <+: c :: s
      · rw [if_pos true_] at read
        cases read
        exact word_native .true rfl true_ rfl
      rw [if_neg true_] at read
      by_cases false_ : falseText <+: c :: s
      · rw [if_pos false_] at read
        cases read
        exact word_native .false rfl false_ rfl
      rw [if_neg false_] at read
      by_cases null_ : nullText <+: c :: s
      · rw [if_pos null_] at read
        cases read
        exact word_native .null rfl null_ rfl
      rw [if_neg null_] at read
      exact run_native read

theorem g4_value_native (room : Nat) : ReadsNative room (g4JsonValue room) := by
  induction room with
  | zero =>
      rw [g4_json_value_inside]
      apply read_native
      intro less never
      cases never
  | succ room induction =>
      rw [g4_json_value_inside]
      apply read_native
      intro less same
      rw [← Nat.succ.inj same]
      exact induction

/-- An object that is read is one of the grammar. -/
theorem g4_object_native {room : Nat} {s out rest : Bytes}
    (read : g4JsonObject room s = .done (out, rest)) : ∃ entries : Entries .brace,
      lbrace :: s = (Native.full .brace entries).spelling ++ rest ∧
        out = (Native.full .brace entries).json ∧ (Native.full .brace entries).Fits room := by
  cases room with
  | zero => cases read
  | succ room =>
      obtain ⟨all, spelled, same, fits⟩ :=
        loop_native (g4_value_native room) (s.length + 1) (.none .brace) s out rest trivial read
      refine ⟨all, ?_, same, Nat.succ_pos room, fits⟩
      rw [Entries.spelling, List.nil_append] at spelled
      rw [spelled]
      simp [Native.spelling, Lid.opener]

/-! ## The reader ends -/

theorem label_shorter {lid : Lid} {s label rest : Bytes}
    (read : g4Label lid s = .done (label, rest)) : rest.length ≤ s.length := by
  obtain ⟨native, spelled, _⟩ := label_native read
  rw [spelled, List.length_append]
  omega

theorem value_shorter {room : Nat} {reader : Reader} (reads : ReadsNative room reader)
    {s out rest : Bytes} (read : reader s = .done (out, rest)) : rest.length < s.length := by
  obtain ⟨value, spelled, _⟩ := reads s out rest read
  obtain ⟨c, tail, shape, _⟩ := native_head value
  rw [spelled, shape, List.length_append, List.length_cons]
  omega

theorem label_ends (lid : Lid) (s : Bytes) : g4Label lid s ≠ .wrong := by
  cases lid with
  | bracket =>
      intro never
      cases never
  | brace =>
      simp only [g4Label, g4Key]
      cases s.dropWhile (· != colon) with
      | nil =>
          intro never
          cases never
      | cons c p =>
          simp only
          split_ifs <;> simp

/-- The loop ends within one round for each byte that is left and a last one. -/
theorem loop_ends {room : Nat} {reader : Reader} (reads : ReadsNative room reader)
    (ends : ∀ s, reader s ≠ .wrong) (lid : Lid) : ∀ (rounds : Nat) (first : Bool) (s out : Bytes),
      s.length < rounds → g4Loop reader lid rounds first s out ≠ .wrong := by
  intro rounds
  induction rounds with
  | zero =>
      intro first s out enough
      exact absurd enough (Nat.not_lt_zero _)
  | succ rounds induction =>
      intro first s out enough
      cases s with
      | nil =>
          intro never
          cases never
      | cons c s =>
          rw [g4Loop]
          by_cases closed : c = lid.closer
          · rw [if_pos closed]
            simp
          by_cases bad : (!first && c != comma) = true
          · rw [if_neg closed, if_pos bad]
            simp
          rw [if_neg closed, if_neg bad]
          apply Outcome.bind_ne_wrong (label_ends lid _)
          intro label labelled
          apply Outcome.bind_ne_wrong (ends _)
          intro value valued
          apply induction
          have less := label_shorter labelled
          have fewer := value_shorter reads valued
          have begun : (if first = true then c :: s else s).length ≤ (c :: s).length := by
            cases first <;> simp
          omega

theorem value_ends {inside : Option Reader} (room : Nat)
    (reads : ∀ reader, inside = some reader → ReadsNative room reader ∧ ∀ s, reader s ≠ .wrong)
    (s : Bytes) : g4ValueWith inside s ≠ .wrong := by
  have container : ∀ lid p, g4Container inside lid p ≠ .wrong := by
    intro lid p
    cases inside with
    | none => simp [g4Container]
    | some reader =>
        obtain ⟨native, ends⟩ := reads reader rfl
        exact loop_ends native ends lid _ true p _ (Nat.lt_succ_self _)
  have string : ∀ p, g4JsonString p ≠ .wrong := by
    intro p
    rw [g4JsonString]
    cases Text.firstHit [g4Quote] (p.drop g4Quote.length) <;> simp
  cases s with
  | nil => simp [g4ValueWith]
  | cons c s =>
      rw [g4ValueWith]
      split_ifs
      · exact string _
      · exact container _ _
      · exact container _ _
      · simp
      · simp
      · simp
      · simp only [g4Run]
        split_ifs <;> simp

theorem g4_value_ends (room : Nat) (s : Bytes) : g4JsonValue room s ≠ .wrong := by
  induction room generalizing s with
  | zero =>
      rw [g4_json_value_inside]
      apply value_ends 0
      intro reader never
      cases never
  | succ room induction =>
      rw [g4_json_value_inside]
      apply value_ends room
      intro reader same
      cases same
      exact ⟨g4_value_native room, induction⟩

theorem g4_object_ends (room : Nat) (s : Bytes) : g4JsonObject room s ≠ .wrong := by
  cases room with
  | zero => simp [g4JsonObject, g4Container, g4Inside]
  | succ room =>
      exact loop_ends (g4_value_native room) (g4_value_ends room) .brace _ true s _
        (Nat.lt_succ_self _)

end GridcoreRunner.Template
