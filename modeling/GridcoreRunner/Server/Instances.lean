import GridcoreRunner.Json.Clean
import GridcoreRunner.Schema.Gemma
import GridcoreRunner.Template.History

/-!
# The record of an instance

`instances_register` and `write_self` write what a process tells about itself as a JSON text;
`parse_rec` reads the file of another process, as far as its buffer goes, with the JSON parser. A
process finds in a record what the other has written, strings with the bytes replaced that begin
no character.
-/

namespace GridcoreRunner.Instances

set_option autoImplicit false

open Json
open Schema (jvNum)
open Template (jvGet jvStr)

/-! ## The text -/

/-- `mode`: what the callers of `instances_register` pass. -/
inductive Mode
  | cli | serve | tray

def Mode.text : Mode → Bytes
  | .cli => [0x63, 0x6c, 0x69]
  | .serve => [0x73, 0x65, 0x72, 0x76, 0x65]
  | .tray => [0x74, 0x72, 0x61, 0x79]

/-- `RUNNER_VERSION`: `0.2.0`. -/
def runnerVersion : Bytes := [0x30, 0x2e, 0x32, 0x2e, 0x30]

/-- `pid` -/
def pidKey : Bytes := [0x70, 0x69, 0x64]

/-- `started` -/
def startedKey : Bytes := [0x73, 0x74, 0x61, 0x72, 0x74, 0x65, 0x64]

/-- `mode` -/
def modeKey : Bytes := [0x6d, 0x6f, 0x64, 0x65]

/-- `port` -/
def portKey : Bytes := [0x70, 0x6f, 0x72, 0x74]

/-- `version` -/
def versionKey : Bytes := [0x76, 0x65, 0x72, 0x73, 0x69, 0x6f, 0x6e]

/-- `models` -/
def modelsKey : Bytes := [0x6d, 0x6f, 0x64, 0x65, 0x6c, 0x73]

/-- `name` -/
def nameKey : Bytes := [0x6e, 0x61, 0x6d, 0x65]

/-- `path` -/
def pathKey : Bytes := [0x70, 0x61, 0x74, 0x68]

/-- `?` -/
def unknown : Bytes := [0x3f]

abbrev blank : UInt8 := 0x20
abbrev newline : UInt8 := 0x0a

/-- What a process tells; a model is its name and its path. -/
structure Self where
  pid : Int
  started : Int
  mode : Mode
  port : Int
  models : List (Bytes × Bytes)

def quoted (s : Bytes) : Bytes := quote :: (s ++ [quote])

def member (key value : Bytes) : Bytes := quote :: (key ++ ([quote, colon, blank] ++ value))

def modelText (model : Bytes × Bytes) : Bytes :=
  lbrace :: (member nameKey (quoted (sbEsc model.1)) ++ ([comma, blank] ++
    (member pathKey (quoted (sbEsc model.2)) ++ [rbrace])))

/-- The loop of `instances_register`, from entry `i` on. -/
def modelsFrom : Nat → List (Bytes × Bytes) → Bytes
  | _, [] => []
  | i, model :: rest =>
      (if 0 < i then [comma, blank] else []) ++ (modelText model ++ modelsFrom (i + 1) rest)

/-- What `write_self` writes. -/
def recordText (self : Self) : Bytes :=
  lbrace :: (member pidKey (Decimal.ofInt self.pid) ++ ([comma, blank] ++
    (member startedKey (Decimal.ofInt self.started) ++ ([comma, blank] ++
    (member modeKey (quoted self.mode.text) ++ ([comma, blank] ++
    (member portKey (Decimal.ofInt self.port) ++ ([comma, newline, blank] ++
    (member versionKey (quoted runnerVersion) ++ ([comma, newline, blank] ++
    (member modelsKey (lbracket :: (modelsFrom 0 self.models ++ [rbracket])) ++
    [rbrace, newline])))))))))))

/-! ## The reader -/

/-- `instance_rec` -/
structure InstanceRec where
  pid : Int
  started : Int
  port : Int
  mode : Bytes
  version : Bytes
  models : List (Bytes × Bytes)

/-- A double as an integer. -/
def toInteger (d : ℚ) : Int := if d < 0 then -⌊-d⌋ else ⌊d⌋

def modelOf (item : Jv) : Bytes × Bytes :=
  ((jvStr (jvGet item nameKey)).getD unknown, (jvStr (jvGet item pathKey)).getD [])

def modelsOf : Option Jv → List (Bytes × Bytes)
  | some (.arr items) => items.map modelOf
  | _ => []

/-- The bytes that `buf` takes, and the letters that `mode` and `version` take. -/
def bufSize : Nat := 16383
def modeSize : Nat := 15
def versionSize : Nat := 31

def parseRec (file : Bytes) : Option InstanceRec :=
  (jsonParse (file.take bufSize)).bind fun v =>
    let pid := toInteger (jvNum (jvGet v pidKey) 0)
    if 0 < pid then
      some {
        pid := pid
        started := toInteger (jvNum (jvGet v startedKey) 0)
        port := toInteger (jvNum (jvGet v portKey) 0)
        mode := ((jvStr (jvGet v modeKey)).getD unknown).take modeSize
        version := ((jvStr (jvGet v versionKey)).getD unknown).take versionSize
        models := modelsOf (jvGet v modelsKey) }
    else none

theorem Mode.read (mode : Mode) : (cString mode.text).take modeSize = mode.text := by
  cases mode <;> rfl

/-! ## The text as a document -/

def oneBlank : Blank := Blank.none.snoc blank rfl

def lineEnd : Blank := Blank.none.snoc newline rfl

def nextLine : Blank := lineEnd.snoc blank rfl

theorem one_blank_val : oneBlank.val = [blank] := rfl

theorem next_line_val : nextLine.val = [newline, blank] := rfl

/-- Text without a byte that needs an escape. -/
def rawText (s : Bytes) : Bool := s.all fun c => decide (PlainByte c ∧ StandsRaw c)

theorem Mode.raw (mode : Mode) : rawText mode.text = true := by
  cases mode <;> rfl

theorem raw_string {s : Bytes} (raw : rawText s = true) :
    ∃ chars : Chars, chars.text = s ∧ chars.decode = s ∧ chars.fine = true := by
  have bytes : ∀ c ∈ s, PlainByte c ∧ StandsRaw c := by
    intro c inside
    exact of_decide_eq_true (List.all_eq_true.mp raw c inside)
  exact (clean_plain fun c inside => (bytes c inside).1).raw_pieces fun c inside =>
    (bytes c inside).2

/-- A member's name with a blank behind the colon. -/
theorem spaced_label (before : Blank) {key : Bytes} (raw : rawText key = true) :
    ∃ label : Label .brace, label.text = before.val ++ quote :: (key ++ [quote, colon, blank]) ∧
      label.keys = [key] ∧ ∀ seen : List Bytes, key ∉ seen → label.fine seen = true := by
  obtain ⟨chars, text, decode, fine⟩ := raw_string raw
  refine ⟨.member ⟨before, chars, Blank.none⟩ oneBlank, ?_, ?_, ?_⟩
  · simp [Label.text, Name.text, Blank.none, one_blank_val, text]
  · rw [Label.keys, decode]
  · intro seen fresh
    simp [Label.fine, fine, decode, fresh]

/-- A number of so few bits is read as it was written. -/
theorem int_numeral {i : Int} (small : |i| ≤ 2 ^ 53) :
    ∃ numeral : Numeral, numeral.text = Decimal.ofInt i ∧ (strtod numeral.text).1 = i ∧
      inRange numeral.text = true := by
  obtain ⟨numeral, text, value⟩ := of_int_numeral i
  have double : IsDouble (i : ℚ) := ⟨i, 0, by simp, small, by decide⟩
  have bounds := abs_le.mp small
  have low : (-(2 : ℚ) ^ 53) ≤ i := by exact_mod_cast bounds.1
  have high : (i : ℚ) ≤ 2 ^ 53 := by exact_mod_cast bounds.2
  have limits : InLimits (i : ℚ) := by
    have limit : (2 : ℚ) ^ 53 < doubleLimit := by
      have unit : (2 : ℚ) ^ 2 ≤ 2 ^ 972 := pow_le_pow_right₀ (by norm_num) (by omega)
      calc (2 : ℚ) ^ 53
          < 4258857765019067 * 2 ^ 2 := by norm_num
        _ ≤ 4258857765019067 * 2 ^ 972 := mul_le_mul_of_nonneg_left unit (by norm_num)
    exact ⟨by linarith, by linarith⟩
  exact ⟨numeral, text, strtod_double double limits value⟩

def modelValue (model : Bytes × Bytes) : Jv :=
  .obj [nameKey, pathKey] [.str (cleaned model.1), .str (cleaned model.2)]

theorem model_doc {model : Bytes × Bytes} (free : NulFree model.1 ∧ NulFree model.2) :
    ∃ doc : Doc, doc.text = modelText model ∧ doc.jv = modelValue model ∧
      doc.fine (maxDepth - 2) = true := by
  obtain ⟨nameLabel, nameText, nameKeys, nameFine⟩ :=
    spaced_label Blank.none (rfl : rawText nameKey = true)
  obtain ⟨pathLabel, pathText, pathKeys, pathFine⟩ :=
    spaced_label oneBlank (rfl : rawText pathKey = true)
  obtain ⟨name, nameSpelled, nameRead, nameGood⟩ := pieces_escaped free.1
  obtain ⟨path, pathSpelled, pathRead, pathGood⟩ := pieces_escaped free.2
  refine ⟨.full .brace (.snoc (.none .brace) nameLabel (.leaf (.string name)) Blank.none)
    pathLabel (.leaf (.string path)) Blank.none, ?_, ?_, ?_⟩
  · simp only [Doc.text, Body.text, Scalar.text, nameText, pathText, nameSpelled, pathSpelled]
    simp [Blank.none, one_blank_val, modelText, member, quoted, Lid.opener, Lid.closer]
  · simp only [Doc.jv, Body.keys, Body.items, Scalar.jv, nameKeys, pathKeys, nameRead, pathRead]
    rfl
  · have nameFresh := nameFine [] List.not_mem_nil
    have pathFresh := pathFine [nameKey] (by decide)
    simp [Doc.fine, Body.fine, Body.keys, Scalar.fine, nameKeys, maxDepth, nameGood, pathGood,
      nameFresh, pathFresh]

theorem models_from_snoc (i : Nat) (models : List (Bytes × Bytes)) (model : Bytes × Bytes) :
    modelsFrom i (models ++ [model]) = modelsFrom i models ++
      ((if 0 < i + models.length then [comma, blank] else []) ++ modelText model) := by
  induction models generalizing i with
  | nil => simp [modelsFrom]
  | cons first models induction =>
      have shift : i + 1 + models.length = i + (first :: models).length := by
        rw [List.length_cons]
        omega
      simp only [List.cons_append, modelsFrom, induction, shift, List.append_assoc]

def leadOf (models : List (Bytes × Bytes)) : Blank := if models = [] then Blank.none else oneBlank

/-- The models with a comma behind each are the front of an array. -/
theorem models_body (models : List (Bytes × Bytes))
    (free : ∀ model ∈ models, NulFree model.1 ∧ NulFree model.2) :
    ∃ body : Body .bracket,
      body.text = modelsFrom 0 models ++ (if models = [] then [] else [comma]) ∧
      body.items = models.map modelValue ∧ body.fine (maxDepth - 2) = true := by
  induction models using List.reverseRecOn with
  | nil => exact ⟨.none .bracket, rfl, rfl, rfl⟩
  | append_singleton models model induction =>
      obtain ⟨body, text, items, fine⟩ := induction fun other inside =>
        free other (List.mem_append_left _ inside)
      obtain ⟨doc, docText, value, docFine⟩ :=
        model_doc (free model (List.mem_append_right _ List.mem_cons_self))
      refine ⟨.snoc body (.item (leadOf models)) doc Blank.none, ?_, ?_, ?_⟩
      · rw [Body.text, text, docText, models_from_snoc]
        by_cases none_ : models = []
        · simp [none_, leadOf, Label.text, Blank.none]
        · have some_ := List.length_pos_iff.mpr none_
          simp [none_, some_, leadOf, Label.text, Blank.none, one_blank_val]
      · rw [Body.items, items, value, List.map_append]
        rfl
      · simp [Body.fine, fine, docFine, Label.fine]

theorem models_doc (models : List (Bytes × Bytes))
    (free : ∀ model ∈ models, NulFree model.1 ∧ NulFree model.2) :
    ∃ doc : Doc, doc.text = lbracket :: (modelsFrom 0 models ++ [rbracket]) ∧
      doc.jv = .arr (models.map modelValue) ∧ doc.fine (maxDepth - 1) = true := by
  cases List.eq_nil_or_concat models with
  | inl none_ =>
      rw [none_]
      exact ⟨.empty .bracket Blank.none, rfl, rfl, rfl⟩
  | inr some_ =>
      obtain ⟨front, model, split⟩ := some_
      rw [List.concat_eq_append] at split
      rw [split] at free ⊢
      obtain ⟨body, text, items, fine⟩ := models_body front fun other inside =>
        free other (List.mem_append_left _ inside)
      obtain ⟨doc, docText, value, docFine⟩ :=
        model_doc (free model (List.mem_append_right _ List.mem_cons_self))
      refine ⟨.full .bracket body (.item (leadOf front)) doc Blank.none, ?_, ?_, ?_⟩
      · rw [Doc.text, text, docText, models_from_snoc]
        by_cases none_ : front = []
        · simp [none_, leadOf, Label.text, Blank.none, Lid.opener, Lid.closer]
        · have some_ := List.length_pos_iff.mpr none_
          simp [none_, some_, leadOf, Label.text, Blank.none, one_blank_val, Lid.opener, Lid.closer]
      · rw [Doc.jv, items, value, List.map_append]
        rfl
      · have room : maxDepth - 1 - 1 = maxDepth - 2 := rfl
        simp [Doc.fine, room, fine, docFine, Label.fine]

/-- The value that the record stands for. -/
def recordValue (self : Self) : Jv :=
  .obj [pidKey, startedKey, modeKey, portKey, versionKey, modelsKey]
    [.num self.pid, .num self.started, .str self.mode.text, .num self.port, .str runnerVersion,
      .arr (self.models.map modelValue)]

/-- What `write_self` writes, up to the last newline. -/
theorem record_doc (self : Self) (pid : |self.pid| ≤ 2 ^ 53) (started : |self.started| ≤ 2 ^ 53)
    (port : |self.port| ≤ 2 ^ 53)
    (free : ∀ model ∈ self.models, NulFree model.1 ∧ NulFree model.2) :
    ∃ doc : Doc, recordText self = doc.text ++ [newline] ∧ doc.jv = recordValue self ∧
      doc.fine maxDepth = true := by
  obtain ⟨pidLabel, pidText, pidKeys, pidFine⟩ :=
    spaced_label Blank.none (rfl : rawText pidKey = true)
  obtain ⟨startedLabel, startedText, startedKeys, startedFine⟩ :=
    spaced_label oneBlank (rfl : rawText startedKey = true)
  obtain ⟨modeLabel, modeText, modeKeys, modeFine⟩ :=
    spaced_label oneBlank (rfl : rawText modeKey = true)
  obtain ⟨portLabel, portText, portKeys, portFine⟩ :=
    spaced_label oneBlank (rfl : rawText portKey = true)
  obtain ⟨versionLabel, versionText, versionKeys, versionFine⟩ :=
    spaced_label nextLine (rfl : rawText versionKey = true)
  obtain ⟨modelsLabel, modelsText, modelsKeys, modelsFine⟩ :=
    spaced_label nextLine (rfl : rawText modelsKey = true)
  obtain ⟨pidDoc, pidSpelled, pidRead, pidGood⟩ := int_numeral pid
  obtain ⟨startedDoc, startedSpelled, startedRead, startedGood⟩ := int_numeral started
  obtain ⟨portDoc, portSpelled, portRead, portGood⟩ := int_numeral port
  obtain ⟨mode, modeSpelled, modeRead, modeGood⟩ := raw_string self.mode.raw
  obtain ⟨version, versionSpelled, versionRead, versionGood⟩ :=
    raw_string (rfl : rawText runnerVersion = true)
  obtain ⟨models, modelsSpelled, modelsRead, modelsGood⟩ := models_doc self.models free
  let early : Body .brace :=
    .snoc (.snoc (.snoc (.snoc (.snoc (.none .brace)
      pidLabel (.leaf (.number pidDoc)) Blank.none)
      startedLabel (.leaf (.number startedDoc)) Blank.none)
      modeLabel (.leaf (.string mode)) Blank.none)
      portLabel (.leaf (.number portDoc)) Blank.none)
      versionLabel (.leaf (.string version)) Blank.none
  refine ⟨.full .brace early modelsLabel models Blank.none, ?_, ?_, ?_⟩
  · simp only [early, Doc.text, Body.text, Scalar.text, pidText, startedText, modeText, portText,
      versionText, modelsText, pidSpelled, startedSpelled, portSpelled, modeSpelled,
      versionSpelled, modelsSpelled]
    simp [recordText, member, quoted, Blank.none, one_blank_val, next_line_val, Lid.opener,
      Lid.closer]
  · simp only [early, Doc.jv, Body.keys, Body.items, Scalar.jv, pidKeys, startedKeys, modeKeys,
      portKeys, versionKeys, modelsKeys, pidRead, startedRead, portRead, modeRead, versionRead,
      modelsRead]
    rfl
  · have pidFresh := pidFine [] List.not_mem_nil
    have startedFresh := startedFine [pidKey] (by decide)
    have modeFresh := modeFine [pidKey, startedKey] (by decide)
    have portFresh := portFine [pidKey, startedKey, modeKey] (by decide)
    have versionFresh := versionFine [pidKey, startedKey, modeKey, portKey] (by decide)
    have modelsFresh := modelsFine [pidKey, startedKey, modeKey, portKey, versionKey] (by decide)
    have room : 0 < maxDepth - 1 := by decide
    simp [early, Doc.fine, Body.fine, Body.keys, Scalar.fine, pidKeys, startedKeys, modeKeys,
      portKeys, versionKeys, pidGood, startedGood, portGood, modeGood, versionGood, modelsGood,
      pidFresh, startedFresh, modeFresh, portFresh, versionFresh, modelsFresh, room]

/-! ## Reading it -/

theorem to_integer_cast (i : Int) : toInteger i = i := by
  unfold toInteger
  split
  · rw [← Int.cast_neg, Int.floor_intCast, neg_neg]
  · exact Int.floor_intCast i

theorem models_read (models : List (Bytes × Bytes))
    (free : ∀ model ∈ models, NulFree model.1 ∧ NulFree model.2) :
    modelsOf (some (.arr (models.map modelValue))) =
      models.map fun model => (cleaned model.1, cleaned model.2) := by
  rw [modelsOf, List.map_map]
  apply List.map_congr_left
  intro model inside
  have name := c_string_whole (pieces_escaped (free model inside).1).clean.nulFree
  have path := c_string_whole (pieces_escaped (free model inside).2).clean.nulFree
  calc (modelOf ∘ modelValue) model
      = (cString (cleaned model.1), cString (cleaned model.2)) := rfl
    _ = (cleaned model.1, cleaned model.2) := by rw [name, path]

/-- What the buffer takes of a record that fits, the last newline or not. -/
theorem buffer_parse {text : Bytes} {doc : Doc} (spelled : text = doc.text ++ [newline])
    (fine : doc.fine maxDepth = true) (room : text.length ≤ bufSize + 1) :
    jsonParse (text.take bufSize) = some doc.jv := by
  have taken :
      ∃ trail : Blank, text.take bufSize = Blank.none.val ++ (doc.text ++ trail.val) := by
    by_cases whole : text.length ≤ bufSize
    · exact ⟨lineEnd, by rw [List.take_of_length_le whole, spelled]; rfl⟩
    · have length : doc.text.length = bufSize := by
        rw [spelled, List.length_append] at room whole
        simp only [List.length_singleton] at room whole
        omega
      refine ⟨Blank.none, ?_⟩
      rw [spelled, ← length, List.take_left]
      simp [Blank.none]
  obtain ⟨trail, same⟩ := taken
  rw [same, json_parse_text, if_pos fine]

/-- A record that fits into the buffer is read as it was written, the names and the paths with
the bytes replaced that begin no character. -/
theorem record_is_read_back (self : Self) (alive : 0 < self.pid) (pid : |self.pid| ≤ 2 ^ 53)
    (started : |self.started| ≤ 2 ^ 53) (port : |self.port| ≤ 2 ^ 53)
    (free : ∀ model ∈ self.models, NulFree model.1 ∧ NulFree model.2)
    (room : (recordText self).length ≤ bufSize + 1) :
    parseRec (recordText self) = some {
      pid := self.pid
      started := self.started
      port := self.port
      mode := self.mode.text
      version := runnerVersion
      models := self.models.map fun model => (cleaned model.1, cleaned model.2) } := by
  obtain ⟨doc, spelled, value, fine⟩ := record_doc self pid started port free
  have parsed : jsonParse ((recordText self).take bufSize) = some (recordValue self) := by
    rw [buffer_parse spelled fine room, value]
  have pidRead : toInteger (jvNum (jvGet (recordValue self) pidKey) 0) = self.pid :=
    to_integer_cast self.pid
  have startedRead : toInteger (jvNum (jvGet (recordValue self) startedKey) 0) = self.started :=
    to_integer_cast self.started
  have portRead : toInteger (jvNum (jvGet (recordValue self) portKey) 0) = self.port :=
    to_integer_cast self.port
  have modeRead : ((jvStr (jvGet (recordValue self) modeKey)).getD unknown).take modeSize =
      self.mode.text := self.mode.read
  have versionRead :
      ((jvStr (jvGet (recordValue self) versionKey)).getD unknown).take versionSize =
        runnerVersion := rfl
  have modelsRead : modelsOf (jvGet (recordValue self) modelsKey) =
      self.models.map fun model => (cleaned model.1, cleaned model.2) :=
    models_read self.models free
  simp only [parseRec, parsed, Option.bind_some, pidRead, startedRead, portRead, modeRead,
    versionRead, modelsRead, if_pos alive]

/-- A server with one model, `a"` in a directory whose name is no UTF-8. -/
def oneModel : Self := {
  pid := 4711
  started := 1700000000
  mode := .serve
  port := 8080
  models := [([0x61, quote], [0x2f, 0xff])] }

set_option maxRecDepth 4000 in
theorem record_is_read_back_one :
    parseRec (recordText oneModel) = some {
      pid := 4711
      started := 1700000000
      port := 8080
      mode := Mode.serve.text
      version := runnerVersion
      models := [([0x61, quote], [0x2f, 0xef, 0xbf, 0xbd])] } := by
  rw [record_is_read_back oneModel (by decide) (by decide) (by decide) (by decide)
    (by simp [oneModel, NulFree, quote]) (by decide)]
  rfl

end GridcoreRunner.Instances
