import GridcoreRunner.Compaction
import GridcoreRunner.Json.Dump
import GridcoreRunner.Template.ArgumentReader

/-!
# Tool calls in free text

`tool_calls_parse_for` and the three scanners behind it. A scanner works in the buffer of the
content: it cuts the call blocks out and writes an item for each. What is left of the content
behind a marker is a list here, and positions count from the marker. The content holds no NUL,
so `strstr` searches to its end. Buffers have their memory; what fails one is a length that an
`int` made negative.
-/

namespace GridcoreRunner.Template

set_option autoImplicit false

open GridcoreRunner.Json GridcoreRunner.Compaction

/-- The `TMPL_` constants. -/
inductive Tmpl
  | chatml | llama2 | llama3 | zephyr | gemma | gemma4 | mistral | phi3 | apertus | ornith | muse
  | granite | harmony | raw | chatmlThink | mistralV1 | mistralNemo | gemma4Mainline
  | llama2Fallback
deriving DecidableEq, Repr

def isGemma4 (tmpl : Tmpl) : Bool := tmpl == .gemma4 || tmpl == .gemma4Mainline

/-- A length that goes through `int` on its way to a `size_t`. -/
def asSize (n : Nat) : Nat :=
  if n % 2 ^ 32 < 2 ^ 31 then n % 2 ^ 32 else 2 ^ 64 - 2 ^ 32 + n % 2 ^ 32

def slice (s : Bytes) (p q : Nat) : Bytes := (s.drop p).take (q - p)

/-- What `sb_esc` is given of bytes whose length goes through an `int`. It refuses a length that
came out negative: no buffer has room for so much. -/
def narrowed (s : Bytes) : Option Bytes :=
  if s.length % 2 ^ 32 < 2 ^ 31 then some (s.take (s.length % 2 ^ 32)) else none

/-! ## What is written -/

/-- What goes to a buffer; it fails at `none` and takes nothing after. -/
abbrev Written := List (Option UInt8)

def written (s : Bytes) : Written := s.map some

/-- What the buffer holds at the end. -/
def Written.bytes : Written → Bytes
  | some c :: w => c :: Written.bytes w
  | _ => []

def escaped : Option Bytes → Written
  | some s => written (sbEsc s)
  | none => [none]

/-! ## Items -/

/-- `{"id":"call_` -/
def itemOpen : Bytes :=
  [0x7b, 0x22, 0x69, 0x64, 0x22, 0x3a, 0x22, 0x63, 0x61, 0x6c, 0x6c, 0x5f]

/-- `","type":"function","function":{"name":"` -/
def itemName : Bytes :=
  [0x22, 0x2c, 0x22, 0x74, 0x79, 0x70, 0x65, 0x22, 0x3a, 0x22, 0x66, 0x75, 0x6e, 0x63, 0x74,
    0x69, 0x6f, 0x6e, 0x22, 0x2c, 0x22, 0x66, 0x75, 0x6e, 0x63, 0x74, 0x69, 0x6f, 0x6e, 0x22,
    0x3a, 0x7b, 0x22, 0x6e, 0x61, 0x6d, 0x65, 0x22, 0x3a, 0x22]

/-- `","arguments":"` -/
def itemArguments : Bytes :=
  [0x22, 0x2c, 0x22, 0x61, 0x72, 0x67, 0x75, 0x6d, 0x65, 0x6e, 0x74, 0x73, 0x22, 0x3a, 0x22]

/-- `"}}` -/
def itemClose : Bytes :=
  [0x22, 0x7d, 0x7d]

/-- A call: the bytes that are escaped for its name, and what is written between the quotes of
its arguments. -/
structure Call where
  name : Option Bytes
  arguments : Written

def callItem (index : Nat) (call : Call) : Written :=
  written (itemOpen ++ (Decimal.ofNat index ++ itemName)) ++ (escaped call.name ++
    (written itemArguments ++ (call.arguments ++ written itemClose)))

def emitItem (index : Nat) (call : Call) : Written :=
  written (if index = 0 then [] else [comma]) ++ callItem index call

/-! ## The marker runner replays itself -/

/-- `<|tool_call>call:` -/
def callOpen : Bytes :=
  [0x3c, 0x7c, 0x74, 0x6f, 0x6f, 0x6c, 0x5f, 0x63, 0x61, 0x6c, 0x6c, 0x3e, 0x63, 0x61, 0x6c,
    0x6c, 0x3a]

/-- `<tool_call|>` -/
def callClose : Bytes :=
  [0x3c, 0x74, 0x6f, 0x6f, 0x6c, 0x5f, 0x63, 0x61, 0x6c, 0x6c, 0x7c, 0x3e]

/-- The brace matching of `tool_calls_parse`: how far the cursor is behind the closing brace.
A backslash in a string hides the byte behind it. -/
def braceLoop : Nat → Bool → Bytes → Option Nat
  | _, _, [] => none
  | depth, true, c :: s =>
      if c = backslash then
        match s with
        | [] => none
        | _ :: s => (braceLoop depth true s).map (· + 2)
      else (braceLoop depth (c != quote) s).map (· + 1)
  | depth, false, c :: s =>
      if c = quote then (braceLoop depth true s).map (· + 1)
      else if c = lbrace then (braceLoop (depth + 1) false s).map (· + 1)
      else if c = rbrace then
        if depth = 1 then some 1 else (braceLoop (depth - 1) false s).map (· + 1)
      else (braceLoop depth false s).map (· + 1)

/-- The places of a whole call: its opening brace, and the end of its arguments. -/
structure ReplayedBlock where
  brace : Nat
  q : Nat

def replayedBlock (s : Bytes) : Option ReplayedBlock :=
  let name := s.drop callOpen.length
  let n := ((name.take 128).takeWhile fun c => c != lbrace && c != 0x3c).length
  if (name.drop n).head? ≠ some lbrace then none
  else
    (braceLoop 0 false (name.drop n)).map fun q =>
      ⟨callOpen.length + n, callOpen.length + n + q⟩

/-- A round of `tool_calls_parse` at its marker. -/
def replayedCall (s : Bytes) : Outcome (Call × Nat) :=
  match replayedBlock s with
  | none => .refused
  | some block =>
      .done (
        { name := narrowed (slice s callOpen.length block.brace),
          arguments := escaped (narrowed (slice s block.brace block.q)) },
        block.q + if callClose <+: s.drop block.q then callClose.length else 0)

def replayedScanner : Scanner UInt8 Call (Option UInt8) where
  marker := callOpen
  retry := callOpen.length
  block := replayedCall
  emit := emitItem

/-- What a parse leaves: the content, the items behind what `tc` held, and their number. -/
structure Recovered where
  content : Bytes
  tc : Bytes
  count : Nat

/-- The new length is published only when a call was found. -/
def publish (size : Nat → Nat) (scan : Scan UInt8 (Option UInt8)) : Recovered where
  content := if scan.count = 0 then scan.tape.cells else scan.tape.cells.take (size scan.tape.write)
  tc := Written.bytes scan.out
  count := scan.count

def recover (scanner : Scanner UInt8 Call (Option UInt8)) (size : Nat → Nat)
    (content tc : Bytes) : Outcome Recovered :=
  (scanner.loop (content.length + 1) ⟨⟨content, 0, 0⟩, 0, written tc⟩).map (publish size)

def toolCallsParse (content tc : Bytes) : Outcome Recovered :=
  recover replayedScanner asSize content tc

/-! ## The dialect of Ornith -/

/-- `<tool_call>` -/
def ornithOpen : Bytes :=
  [0x3c, 0x74, 0x6f, 0x6f, 0x6c, 0x5f, 0x63, 0x61, 0x6c, 0x6c, 0x3e]

/-- `<function=` -/
def functionOpen : Bytes :=
  [0x3c, 0x66, 0x75, 0x6e, 0x63, 0x74, 0x69, 0x6f, 0x6e, 0x3d]

/-- `</function>` -/
def functionEnd : Bytes :=
  [0x3c, 0x2f, 0x66, 0x75, 0x6e, 0x63, 0x74, 0x69, 0x6f, 0x6e, 0x3e]

/-- `</tool_call>` -/
def ornithClose : Bytes :=
  [0x3c, 0x2f, 0x74, 0x6f, 0x6f, 0x6c, 0x5f, 0x63, 0x61, 0x6c, 0x6c, 0x3e]

/-- `<parameter=` -/
def parameterOpen : Bytes :=
  [0x3c, 0x70, 0x61, 0x72, 0x61, 0x6d, 0x65, 0x74, 0x65, 0x72, 0x3d]

/-- `</parameter>` -/
def parameterEnd : Bytes :=
  [0x3c, 0x2f, 0x70, 0x61, 0x72, 0x61, 0x6d, 0x65, 0x74, 0x65, 0x72, 0x3e]

def greater : UInt8 := 0x3e

/-- `strstr` from a position on. -/
def strstr (needle s : Bytes) (p : Nat) : Option Nat :=
  (Text.firstHit [needle] (s.drop p)).map fun hit => p + hit.1

def memchr (c : UInt8) (s : Bytes) (p n : Nat) : Option Nat :=
  (((s.drop p).take n).findIdx? (· == c)).map (p + ·)

def trimLeft (s : Bytes) (p q : Nat) : Nat := p + ((slice s p q).takeWhile isWs).length

def trimRight (s : Bytes) (p q : Nat) : Nat := q - ((slice s p q).reverse.takeWhile isWs).length

/-- The places of a parameter: its name, the end of the name, and the end of its value. -/
structure Parameter where
  name : Nat
  nameEnd : Nat
  valueEnd : Nat

/-- The next parameter in front of the end of the function; `none` leaves the loop. The opening
text ends in front of it too, as it holds one `<` only. -/
def nextParameter (s : Bytes) (fnEnd a : Nat) : Option Parameter :=
  (strstr parameterOpen s a).bind fun p =>
    if p ≥ fnEnd then none
    else
      let name := p + parameterOpen.length
      (memchr greater s name (fnEnd - name)).bind fun nameEnd =>
        (strstr parameterEnd s (nameEnd + 1)).bind fun valueEnd =>
          if valueEnd > fnEnd then none else some ⟨name, nameEnd, valueEnd⟩

def parameterName (s : Bytes) (parameter : Parameter) : Option Bytes :=
  narrowed (slice s parameter.name parameter.nameEnd)

/-- The value without the blanks around it. -/
def rawValue (s : Bytes) (parameter : Parameter) : Bytes :=
  let start := trimLeft s (parameter.nameEnd + 1) parameter.valueEnd
  slice s start (trimRight s start parameter.valueEnd)

/-- A value that parses as JSON is printed again, and any other is a string. -/
def parameterValue (s : Bytes) (parameter : Parameter) : Bytes :=
  match jsonParse (rawValue s parameter) with
  | some value => jvDump value
  | none =>
      Written.bytes (written [quote] ++ (escaped (narrowed (rawValue s parameter)) ++
        written [quote]))

def parameterItem (first : Bool) (name : Option Bytes) (value : Bytes) : Written :=
  written ((if first then [] else [comma]) ++ [backslash, quote]) ++ (escaped name ++
    written (backslash :: quote :: colon :: sbEsc value))

/-- `while (a < fn_end)`; each round reads at least one byte. -/
def parameterLoop (s : Bytes) (fnEnd : Nat) : Nat → Nat → Bool → Written → Outcome Written
  | 0, _, _, _ => .wrong
  | rounds + 1, a, first, out =>
      if a < fnEnd then
        match nextParameter s fnEnd a with
        | none => .done out
        | some parameter =>
            parameterLoop s fnEnd rounds (parameter.valueEnd + parameterEnd.length) false
              (out ++ parameterItem first (parameterName s parameter) (parameterValue s parameter))
      else .done out

/-- The places of a whole call. -/
structure OrnithBlock where
  name : Nat
  nameEnd : Nat
  fnEnd : Nat
  stop : Nat

def ornithBlock (s : Bytes) : Option OrnithBlock :=
  let f := trimLeft s ornithOpen.length s.length
  if ¬functionOpen <+: s.drop f then none
  else
    let name := f + functionOpen.length
    (memchr greater s name (s.length - name)).bind fun nameEnd =>
      (strstr functionEnd s (nameEnd + 1)).bind fun fnEnd =>
        let close := trimLeft s (fnEnd + functionEnd.length) s.length
        if ¬ornithClose <+: s.drop close then none
        else some ⟨name, nameEnd, fnEnd, close + ornithClose.length⟩

/-- A round of `ornith_tool_calls_parse` at its marker. -/
def ornithCall (s : Bytes) : Outcome (Call × Nat) :=
  match ornithBlock s with
  | none => .refused
  | some block =>
      (parameterLoop s block.fnEnd (s.length + 1) (block.nameEnd + 1) true []).map fun parameters =>
        ({ name := narrowed (slice s block.name block.nameEnd),
           arguments := written [lbrace] ++ (parameters ++ written [rbrace]) }, block.stop)

/-- Where no call begins, one byte of the marker is kept. -/
def ornithScanner : Scanner UInt8 Call (Option UInt8) where
  marker := ornithOpen
  retry := 1
  block := ornithCall
  emit := emitItem

def ornithToolCallsParse (content tc : Bytes) : Outcome Recovered :=
  recover ornithScanner asSize content tc

/-! ## The dialect of Gemma 4 -/

/-- `<|tool_call>` -/
def gemma4Open : Bytes :=
  [0x3c, 0x7c, 0x74, 0x6f, 0x6f, 0x6c, 0x5f, 0x63, 0x61, 0x6c, 0x6c, 0x3e]

/-- `g4_one_call` -/
def g4OneCall (s : Bytes) : Outcome (Call × Nat) :=
  if ¬callOpen <+: s then .refused
  else
    let p := s.drop callOpen.length
    let name := p.takeWhile (· != lbrace)
    match p.dropWhile (· != lbrace) with
    | [] => .refused
    | _ :: inside =>
        if name = [] then .refused
        else
          (g4JsonObject g4MaxDepth inside).map fun (text, rest) =>
            ({ name := some name, arguments := written (sbEsc text) },
              s.length - rest.length + if callClose <+: rest then callClose.length else 0)

/-- A failed call leaves `tc` as it was, the comma in front of it included. -/
def gemma4Scanner : Scanner UInt8 Call (Option UInt8) where
  marker := gemma4Open
  retry := gemma4Open.length
  block := g4OneCall
  emit := emitItem

def gemma4ToolCallsParse (content tc : Bytes) : Outcome Recovered :=
  recover gemma4Scanner id content tc

/-! ## The family decides -/

def scannerFor (tmpl : Tmpl) : Scanner UInt8 Call (Option UInt8) :=
  if tmpl = .ornith then ornithScanner
  else if isGemma4 tmpl then gemma4Scanner
  else replayedScanner

def toolCallsParseFor (tmpl : Tmpl) (content tc : Bytes) : Outcome Recovered :=
  if tmpl = .ornith then ornithToolCallsParse content tc
  else if isGemma4 tmpl then gemma4ToolCallsParse content tc
  else toolCallsParse content tc

end GridcoreRunner.Template
