import GridcoreRunner.Schema.Validator
import GridcoreRunner.Template.History

/-!
# Compiling a JSON schema

`schema_compile` turns a schema into nodes, or says why it does not. The depth is counted
down from the 25 levels that the limit of 24 admits. A failed allocation is left out, and so
is the cut that `errcap` makes in a message.
-/

namespace GridcoreRunner.Schema

set_option autoImplicit false

open GridcoreRunner.Json GridcoreRunner.Template

abbrev Compiled (α : Type) := Except Bytes α

def bytesOf (s : String) : Bytes := s.toList.map fun c => UInt8.ofNat c.toNat

/-- A failed check, with its message. -/
def require (ok : Bool) (message : Bytes) : Compiled Unit := if ok then .ok () else .error message

/-! ## Values -/

def field (s : Jv) (key : String) : Option Jv := jvGet s (bytesOf key)

def isObject : Jv → Bool
  | .obj _ _ => true
  | _ => false

def isScalar : Jv → Bool
  | .arr _ => false
  | .obj _ _ => false
  | _ => true

/-- The keys of an object, as C reads them, and its values. -/
def jvMembers : Jv → List (Bytes × Jv)
  | .obj keys items => (keys.map cString).zip items
  | _ => []

def jvItems : Jv → List Jv
  | .arr items => items
  | .obj _ items => items
  | _ => []

/-- The strings of an array, `none` for another item. -/
def jvStrings (v : Option Jv) : List (Option Bytes) :=
  match v with
  | some (.arr items) => items.map fun item => jvStr (some item)
  | _ => []

/-! ## The keyword gate -/

def kwIn (k : Bytes) (list : List String) : Bool := list.any fun word => bytesOf word == k

def kwAnnotation : List String :=
  ["title", "description", "$comment", "$schema", "$id", "examples", "default", "deprecated",
    "readOnly", "writeOnly", "format"]

def kwString : List String := ["minLength", "maxLength", "pattern"]
def kwArray : List String := ["items", "minItems", "maxItems"]
def kwObject : List String := ["properties", "required", "additionalProperties", "propertyNames"]
def kwInteger : List String := ["minimum", "maximum", "exclusiveMinimum", "exclusiveMaximum"]

/-- `declares_type` -/
def declaresType (s : Jv) (want : String) : Bool :=
  match field s "type" with
  | some (.str ty) => cString ty == bytesOf want
  | some (.arr items) => items.any fun item => (jvStr (some item)).getD (bytesOf "?") == bytesOf want
  | some _ => false
  | none =>
      if (field s "properties").isSome then want == "object"
      else if (field s "items").isSome then want == "array"
      else false

/-- What the keyword gate admits in a schema without combinators and literals. -/
def kwTyped (s : Jv) (k : Bytes) : Bool :=
  declaresType s "string" && kwIn k kwString || declaresType s "array" && kwIn k kwArray ||
    declaresType s "object" && kwIn k kwObject || declaresType s "number" && kwIn k kwInteger ||
    declaresType s "integer" && kwIn k kwInteger

/-- `check_keywords` -/
def checkKeywords (s : Jv) : Compiled Unit := do
  let one := (field s "oneOf").isSome
  let any := (field s "anyOf").isSome
  require (!(one && any)) (bytesOf "keyword 'anyOf' cannot be combined with 'oneOf'")
  let composed := one || any
  let literal := !composed && ((field s "enum").isSome || (field s "const").isSome)
  let admitted (k : Bytes) : Bool :=
    kwIn k kwAnnotation || kwIn k ["type"] ||
      if composed then kwIn k ["oneOf", "anyOf"]
      else if literal then kwIn k ["enum", "const"]
      else kwTyped s k
  match (jvMembers s).find? fun member => !admitted member.1 with
  | some member => .error (bytesOf "unsupported schema keyword '" ++ member.1.take 40 ++ bytesOf "'")
  | none => .ok ()

/-- The one schema that `propertyNames` may be. -/
def stringNames (v : Jv) : Bool :=
  (jvMembers v).length == 1 && jvStr (field v "type") == some (bytesOf "string")

/-- `check_object_rules` -/
def checkObjectRules (s : Jv) : Compiled Unit := do
  let props := field s "properties"
  require (props.all isObject) (bytesOf "properties must be an object")
  let declared := props.any fun v => !(jvMembers v).isEmpty
  let additional := field s "additionalProperties"
  let closed := additional.any fun
    | .bool b => !b
    | _ => false
  let opened := !declared && additional.any fun
    | .bool b => b
    | .obj _ _ => true
    | _ => false
  require (additional.isNone || opened || closed)
    (bytesOf ("additionalProperties is only supported as false alongside declared properties, " ++
      "or as an open schema without them"))
  require ((field s "propertyNames").all stringNames)
    (bytesOf "propertyNames is only supported as \x7b\"type\":\"string\"\x7d")
  let required := field s "required"
  require (required.all fun
    | .arr _ => true
    | _ => false) (bytesOf "required must be an array")
  require (required.all fun v => (jvItems v).isEmpty || declared)
    (bytesOf "required needs a properties map to constrain")

/-- `INT_MAX` -/
def intMax : Nat := 2147483647

/-- `compile_bound`: `none` for a bound that is none, and an absent one inside. -/
def compileBound : Option Jv → Option (Option Nat)
  | none => some none
  | some (.num d) =>
      if d < 0 ∨ (intMax : ℚ) < d ∨ (⌊d⌋ : ℚ) ≠ d then none else some (some ⌊d⌋.toNat)
  | some _ => none

/-- The bounds of a length; without the upper one there is no limit. -/
def compileBounds (s : Jv) (minKey maxKey : String) (message : Bytes) : Compiled (Nat × Option Nat) :=
  match compileBound (field s minKey), compileBound (field s maxKey) with
  | some low, some high =>
      if high.any fun bound => decide (bound < low.getD 0) then .error message
      else .ok (low.getD 0, high)
  | _, _ => .error message

/-! ## Patterns -/

/-- `pattern_prefix_char_ok`; a C string holds no NUL. -/
def patternPrefixCharOk (c : UInt8) : Bool :=
  c < 128 && !(0 :: bytesOf ".\\*+?()|\x7b\x7d$^").contains c

/-- `pattern_shorthand_class` -/
def patternShorthandClass (c : UInt8) : Option (UInt8 → Bool) :=
  if c = 0x64 then some isDigit
  else if c = 0x77 then
    some fun x => isDigit x || 0x41 ≤ x && x ≤ 0x5a || 0x61 ≤ x && x ≤ 0x7a || x == underscore
  else none

/-- `strtol` in base ten: the value, held in a `long`, and the text behind it. Without digits
the text is left whole. -/
def strtol (s : Bytes) : ℤ × Bytes :=
  let unsigned := s.dropWhile Decimal.isBlank
  let negative := unsigned.head? == some minus
  let digits := if negative || unsigned.head? == some plus then unsigned.drop 1 else unsigned
  if (digits.takeWhile isDigit).isEmpty then (0, s)
  else
    let n : ℤ := Decimal.value (digits.takeWhile isDigit)
    (max (-(2 ^ 63)) (min (2 ^ 63 - 1) (if negative then -n else n)), digits.dropWhile isDigit)

/-- A count of a quantifier, and the text behind it. -/
def patternCount (s : Bytes) : Option (Nat × Bytes) :=
  let (n, rest) := strtol s
  if n < 0 ∨ (intMax : ℤ) < n ∨ rest.length = s.length then none else some (n.toNat, rest)

/-- `parse_quantifier` -/
def parseQuantifier : Bytes → Option (Nat × Option Nat × Bytes)
  | [] => none
  | q :: s =>
      if q = plus then some (1, none, s)
      else if q ≠ lbrace then none
      else
        (patternCount s).bind fun (low, rest) =>
          match rest with
          | [] => none
          | c :: rest =>
              if c = rbrace then some (low, some low, rest)
              else if c ≠ comma then none
              else if rest.head? = some rbrace then some (low, none, rest.drop 1)
              else
                (patternCount rest).bind fun (high, rest) =>
                  match rest with
                  | [] => none
                  | c :: rest =>
                      if c ≠ rbrace then none
                      else if high < low then none
                      else some (low, some high, rest)

/-- The members between the brackets of a class. -/
def classLoop : Bytes → (UInt8 → Bool) → Option (UInt8 → Bool)
  | [], ascii => some ascii
  | q :: rest, ascii =>
      let single : Option (UInt8 → Bool) :=
        if 128 ≤ q then none else classLoop rest fun c => ascii c || c == q
      if q = backslash then none
      else
        match rest with
        | dash :: hi :: more =>
            if dash = minus then
              if hi = backslash ∨ 128 ≤ q ∨ 128 ≤ hi ∨ hi < q then none
              else classLoop more fun c => ascii c || q ≤ c && c ≤ hi
            else single
        | _ => single

/-- A class behind its opening bracket, and the text behind the class. -/
def bracketClass (s : Bytes) : Option ((UInt8 → Bool) × Bytes) :=
  match s.idxOf? rbracket with
  | none => none
  | some close =>
      if s.head? = some 0x5e then none
      else (classLoop (s.take close) fun _ => false).map fun ascii => (ascii, s.drop (close + 1))

/-- A class from its first byte on: `\d`, `\w` or a bracket. -/
def patternClass (shorthand : Bool) (s : Bytes) : Option ((UInt8 → Bool) × Bytes) :=
  if shorthand then
    match s with
    | _ :: c :: rest => (patternShorthandClass c).map fun ascii => (ascii, rest)
    | _ => none
  else bracketClass (s.drop 1)

/-- `sizeof(segs) / sizeof(*segs)` -/
def maxSegs : Nat := 8

/-- The loop of `compile_ascii_pattern` with so many segments left; a run without a class
behind it is the last. -/
def patternLoop : Nat → Bytes → Option (List PatSeg × Bytes)
  | 0, p => if p = [] ∨ p = [0x24] then some ([], p) else none
  | slots + 1, p =>
      if p = [] ∨ p = [0x24] then some ([], p)
      else
        let bracket := p.idxOf? lbracket
        let escape := p.idxOf? backslash
        let shorthand := escape.any fun e => bracket.all fun b => decide (e < b)
        let cls := if shorthand then escape else bracket
        let run := p.take (cls.getD (p.length - 1))
        let rest := p.drop (cls.getD (p.length - 1))
        if !run.all patternPrefixCharOk then none
        else if cls.isNone then
          some ([{ literal := run, hasClass := false, minTail := 0, maxTail := some 0,
                   ascii := fun _ => false }], rest)
        else
          (patternClass shorthand rest).bind fun (ascii, quant) =>
            (parseQuantifier quant).bind fun (low, high, after) =>
              (patternLoop slots after).map fun (segs, p) =>
                ({ literal := run, hasClass := true, minTail := low, maxTail := high,
                   ascii := ascii } :: segs, p)

/-- Every segment but the last has a fixed length. -/
def fixedBefore (segs : List PatSeg) : Bool :=
  segs.dropLast.all fun g => !g.hasClass || g.maxTail == some g.minTail

/-- The segments of a pattern. -/
def patternSegs (pattern : Bytes) : Option (List PatSeg) :=
  match pattern with
  | [] => none
  | c :: p =>
      if c ≠ 0x5e then none
      else
        (patternLoop maxSegs p).bind fun (segs, rest) =>
          if rest = [0x24] ∧ (segs.any fun g => g.hasClass) ∧ fixedBefore segs then some segs else none

/-- `compile_ascii_pattern` -/
def compileAsciiPattern (s : Jv) : Compiled (List PatSeg) :=
  match field s "pattern" with
  | none => .ok []
  | some v =>
      match (jvStr (some v)).bind patternSegs with
      | some segs => .ok segs
      | none =>
          .error (bytesOf ("pattern only supports an anchored sequence of literal runs and " ++
            "repeated ASCII classes ([...], \\d or \\w), where every class before the last has a " ++
            "fixed count (got ") ++ (jvStr (some v)).getD (bytesOf "a non-string") ++ bytesOf ")")

/-- `pat_max_len`; without a bound there is none. -/
def patMaxLen (pat : List PatSeg) : Option Nat :=
  if pat.any fun g => g.hasClass && g.maxTail.isNone then none
  else some (pat.map fun g => g.literal.length + if g.hasClass then g.maxTail.getD 0 else 0).sum

/-! ## Numbers -/

/-- `JSON_SAFE_INTEGER` -/
def jsonSafeInteger : ℚ := 9007199254740991

/-- `numeric_keyword`: `none` for a bound that is none, and an absent one inside. -/
def numericKeyword (s : Jv) (key : String) : Option (Option ℚ) :=
  match field s key with
  | none => some none
  | some (.num d) => if d < -jsonSafeInteger ∨ jsonSafeInteger < d then none else some (some d)
  | some _ => none

/-- The four bounds of a numeric type. -/
structure Bounds where
  minimum : Option ℚ
  exclusiveMinimum : Option ℚ
  maximum : Option ℚ
  exclusiveMaximum : Option ℚ

def numericBounds (s : Jv) : Option Bounds :=
  (numericKeyword s "minimum").bind fun minimum =>
    (numericKeyword s "exclusiveMinimum").bind fun exclusiveMinimum =>
      (numericKeyword s "maximum").bind fun maximum =>
        (numericKeyword s "exclusiveMaximum").map fun exclusiveMaximum =>
          { minimum := minimum, exclusiveMinimum := exclusiveMinimum,
            maximum := maximum, exclusiveMaximum := exclusiveMaximum }

/-- An interval with a bound on either side or without it is not empty. -/
def inhabited {α : Type} [LinearOrder α] (low high : Option α) : Bool :=
  low.all fun low => high.all fun high => decide (low ≤ high)

/-- `compile_integer_bounds` -/
def compileIntegerBounds (s : Jv) : Compiled Snode :=
  match numericBounds s with
  | none => .error (bytesOf "integer bounds must be finite JSON-safe numbers")
  | some b =>
      let low := Option.merge max (b.minimum.map Int.ceil)
        (b.exclusiveMinimum.map fun x => ⌊x⌋ + 1)
      let high := Option.merge min (b.maximum.map Int.floor)
        (b.exclusiveMaximum.map fun x => ⌈x⌉ - 1)
      if inhabited low high then .ok (.int low high) else .error (bytesOf "empty integer bounds")

/-- The doubles next to a positive double lie so far above and below it. -/
def gapAbove (q : ℚ) : ℚ := (2 : ℚ) ^ max (lastBit q) (-1074)

def gapBelow (q : ℚ) : ℚ :=
  (2 : ℚ) ^ max (if (2 : ℚ) ^ Int.log 2 q = q then lastBit q - 1 else lastBit q) (-1074)

/-- `nextafter(x, DBL_MAX)`, for a bound below `DBL_MAX`. -/
def nextUp (q : ℚ) : ℚ :=
  if q = 0 then (2 : ℚ) ^ (-1074 : ℤ) else if 0 < q then q + gapAbove q else q + gapBelow (-q)

/-- `nextafter(x, -DBL_MAX)` -/
def nextDown (q : ℚ) : ℚ := -nextUp (-q)

/-- `compile_number_bounds`: an exclusive bound replaces the other. -/
def compileNumberBounds (s : Jv) : Compiled Snode :=
  match numericBounds s with
  | none => .error (bytesOf "number bounds must be finite JSON-safe numbers")
  | some b =>
      let low := (b.exclusiveMinimum.map nextUp).or b.minimum
      let high := (b.exclusiveMaximum.map nextDown).or b.maximum
      if inhabited low high then .ok (.num low high) else .error (bytesOf "empty number bounds")

/-! ## Properties -/

/-- `plain_key` -/
def plainKey (s : Bytes) : Bool := s.all fun c => !(c < 0x20 || c == quote || c == backslash)

def requirePlain (keys : List Bytes) : Compiled Unit :=
  require (keys.all plainKey) (bytesOf "property keys needing JSON escapes are unsupported")

/-- The flags of the required keys; every one of them has to be declared. -/
def requiredFlags (keys : List Bytes) (req : Option Jv) : Compiled (List Bool) :=
  let names := jvStrings req
  match names.find? fun name => !name.any keys.contains with
  | some name =>
      .error (bytesOf "required key '" ++ name.getD (bytesOf "?") ++ bytesOf "' not in properties")
  | none => .ok (keys.map fun key => names.contains (some key))

/-- The members of an object node; no key has a spelling of its own behind a comma. -/
def objNode (keys : List Bytes) (req : List Bool) (values : List Snode) : Snode :=
  .obj ((keys.zip (req.zip values)).map fun (key, req, value) =>
    { key := key, nextKey := [], req := req, value := value })

/-- `prop_index` -/
def propIndex (props : Jv) (key : String) : Option Nat :=
  ((jvMembers props).map Prod.fst).idxOf? (bytesOf key)

/-- `same_prop_order` -/
def samePropOrder (a : Jv) (b : Option Jv) : Bool :=
  b.any fun b =>
    isObject a && isObject b && (jvMembers a).map Prod.fst == (jvMembers b).map Prod.fst

def constOf (s : Option Jv) : Option Jv := (s.bind fun s => field s "const").filter isScalar

/-- The property of an alternative at an index. -/
def propAt (alt : Jv) (i : Nat) : Option Jv :=
  (field alt "properties").bind fun props => ((jvMembers props)[i]?).map Prod.snd

def maxAlternatives : Nat := 60

/-! ## Types and unions -/

/-- The alternatives share their properties, and each one names a scalar as its tool. -/
def discriminates (first : Jv) (tool : Nat) (alts : List Jv) : Bool :=
  alts.all fun alt =>
    samePropOrder first (field alt "properties") && (constOf (propAt alt tool)).isSome

def sameRequired (req other : Option Jv) : Bool :=
  jvStrings req == jvStrings other && (jvStrings req).all Option.isSome

/-- `compile_discriminated_action`: `none` where the alternatives are no such action. -/
def compileDiscriminatedAction (node : Option Jv → Compiled Snode) (alts : List Jv) :
    Option (Compiled Snode) :=
  match alts.head?.bind fun first => field first "properties" with
  | none => none
  | some first =>
      let members := jvMembers first
      match propIndex first "tool", propIndex first "args" with
      | some tool, some args =>
          if maxAlternatives < alts.length ∨ maxAlternatives < members.length then none
          else if args < tool then
            some (.error (bytesOf "tool discriminator must precede args"))
          else if !discriminates first tool alts then none
          else some do
            let _ ← alts.mapM fun alt => do
              checkKeywords alt
              checkObjectRules alt
            let keys := members.map Prod.fst
            requirePlain keys
            let lits := alts.map fun alt => ((constOf (propAt alt tool)).map jvDump).getD []
            require (decide lits.Nodup) (bytesOf "duplicate discriminator const")
            let branches ← alts.mapM fun alt => node (propAt alt args)
            let values ← members.zipIdx.mapM fun (member, i) =>
              if i = tool then .ok (.enum lits false false)
              else if i = args then .ok (.cond branches false)
              else node (some member.2)
            let required (alt : Option Jv) : Option Jv := alt.bind fun alt => field alt "required"
            let flags ← requiredFlags keys (required alts.head?)
            require (alts.tail.all fun alt => sameRequired (required alts.head?) (required (some alt)))
              (bytesOf "oneOf alternatives declare different required keys")
            return objNode keys flags values
      | _, _ => none

/-- A string with its pattern. -/
def compileString (s : Jv) : Compiled Snode := do
  let (low, high) ← compileBounds s "minLength" "maxLength" (bytesOf "invalid string length bounds")
  let pat ← compileAsciiPattern s
  require (pat.isEmpty || (patMaxLen pat).all fun most => decide (low ≤ most))
    (bytesOf "pattern cannot satisfy minLength")
  require (pat.isEmpty || high.all fun high => decide (patMinLen pat ≤ high))
    (bytesOf "pattern cannot satisfy maxLength")
  return .str low high pat

/-- An object: closed without keys, a map, open, or with declared properties. -/
def compileObject (node : Option Jv → Compiled Snode) (s : Jv) : Compiled Snode := do
  checkObjectRules s
  let members := ((field s "properties").map jvMembers).getD []
  let additional := field s "additionalProperties"
  match members, additional with
  | [], some (.bool false) => return .obj []
  | [], some (.obj names values) =>
      if values.isEmpty then return .any true
      else return .map (← node (some (.obj names values)))
  | [], _ => return .any true
  | _, _ =>
      require (members.length ≤ 60) (bytesOf "too many properties (max 60)")
      let values ← members.mapM fun member => do
        require (plainKey member.1) (bytesOf "property keys needing JSON escapes are unsupported")
        node (some member.2)
      let keys := members.map Prod.fst
      let flags ← requiredFlags keys (field s "required")
      return objNode keys flags values

/-- `compile_typed` -/
def compileTyped (node : Option Jv → Compiled Snode) (s : Jv) (type : Bytes) : Compiled Snode := do
  if type = bytesOf "string" then compileString s
  else if type = bytesOf "number" then compileNumberBounds s
  else if type = bytesOf "integer" then compileIntegerBounds s
  else if type = bytesOf "boolean" then return .bool
  else if type = bytesOf "null" then return .null
  else if type = bytesOf "array" then
    let items ← node (field s "items")
    let (low, high) ← compileBounds s "minItems" "maxItems" (bytesOf "invalid array item bounds")
    return .arr items low high
  else if type = bytesOf "object" then compileObject node s
  else .error (bytesOf "unsupported type '" ++ type ++ bytesOf "'")

/-- The bytes that a set of first bytes holds; a text without bytes starts with its NUL. -/
def firstBytes (texts : List Bytes) : List UInt8 := texts.map fun text => text.headD 0

def allBytes : List UInt8 := (List.range 256).map UInt8.ofNat

/-- `union_start_bytes` -/
def unionStartBytes : Snode → Option (List UInt8)
  | .str _ _ _ => some [quote]
  | .enum lits _ _ => some (firstBytes lits)
  | .obj _ => some [lbrace]
  | .map _ => some [lbrace]
  | .arr _ _ _ => some [lbracket]
  | .bool => some (firstBytes [trueText, falseText])
  | .null => some (firstBytes [nullText])
  | .num _ _ => some (minus :: bytesOf "0123456789")
  | .int _ _ => some (minus :: bytesOf "0123456789")
  | .seq (n :: _) _ => unionStartBytes n
  | .members props sentinel =>
      some (firstBytes (props.map Member.key) ++ sentinel.take 1)
  | .raw _ _ => some allBytes
  | _ => none

/-- Alternatives that the validator can tell apart by their first byte. -/
def checkDispatch : List Snode → List UInt8 → Nat → Compiled Unit
  | [], _, _ => .ok ()
  | alt :: rest, seen, i =>
      match unionStartBytes alt with
      | none =>
          .error (bytesOf "oneOf alternative " ++ Decimal.ofNat i ++
            bytesOf " cannot be dispatched by its first byte")
      | some mine =>
          if mine.any seen.contains then
            .error (bytesOf "oneOf alternatives are ambiguous (share a starting byte)")
          else checkDispatch rest (mine ++ seen) (i + 1)

/-- The literals of scalar values. -/
def enumNode (values : List Jv) : Compiled Snode := do
  require (!values.isEmpty && values.length ≤ 60) (bytesOf "enum size must be 1..60")
  require (values.all isScalar) (bytesOf "enum values must be scalars")
  return .enum (values.map jvDump) false false

/-- Enumerations read as one, unless the literals are too many. -/
def mergedLiterals (alts : List Snode) : Option Snode :=
  let lits := alts.flatMap Snode.literals
  if alts.all Snode.isEnum && !lits.isEmpty && lits.length ≤ 60 then some (.enum lits false false)
  else none

/-- `compile_oneof` -/
def compileOneof (node : Option Jv → Compiled Snode) (v : Jv) : Compiled Snode := do
  let alts : List Jv :=
    match v with
    | .arr items => items
    | _ => []
  require (!alts.isEmpty) (bytesOf "oneOf/anyOf must be a non-empty array")
  if alts.all fun alt => (constOf (some alt)).isSome then
    enumNode (alts.filterMap fun alt => constOf (some alt))
  else
    match compileDiscriminatedAction node alts with
    | some action => action
    | none =>
        let nodes ← alts.mapM fun alt => node (some alt)
        match mergedLiterals nodes with
        | some merged => return merged
        | none =>
            if 1 < nodes.length then checkDispatch nodes [] 0
            return .union nodes false

/-- The types of a list, with one numeric type for all of them. -/
def listedTypes (alone : Bool) : Bool → List Bytes → List Bytes
  | _, [] => []
  | numbered, t :: rest =>
      if t = bytesOf "number" ∨ t = bytesOf "integer" then
        if numbered then listedTypes alone numbered rest
        else (if alone then t else bytesOf "number") :: listedTypes alone true rest
      else t :: listedTypes alone numbered rest

/-- `compile_node` for a schema within the limit. The nodes below it stand one level deeper,
and those below the types of a list one more. -/
def compileLevel (node deeper : Option Jv → Compiled Snode) (s : Option Jv) : Compiled Snode :=
  match s with
  | none => .ok (.any false)
  | some .null => .ok (.any false)
  | some (.bool _) => .ok (.any false)
  | some (.obj keys items) =>
      let v : Jv := .obj keys items
      if items.isEmpty then .ok (.any false)
      else do
        checkKeywords v
        match (field v "oneOf").or (field v "anyOf") with
        | some alts => compileOneof node alts
        | none =>
            match field v "enum", field v "const" with
            | some (.arr values), _ => enumNode values
            | some _, _ => .error (bytesOf "enum must be an array")
            | none, some value => enumNode [value]
            | none, none =>
                match field v "type" with
                | none =>
                    if (field v "properties").isSome then compileTyped node v (bytesOf "object")
                    else if (field v "items").isSome then compileTyped node v (bytesOf "array")
                    else .ok (.any false)
                | some (.str type) => compileTyped node v (cString type)
                | some (.arr types) =>
                    require (!types.isEmpty) (bytesOf "'type' array must list at least one type")
                    let names := types.map fun t => (jvStr (some t)).getD (bytesOf "?")
                    return .union (← (listedTypes (types.length == 1) false names).mapM
                      (compileTyped deeper v)) false
                | some _ => .error (bytesOf "bad 'type' value")
  | some _ => .error (bytesOf "schema node must be an object")

def tooDeep (_ : Option Jv) : Compiled Snode := .error (bytesOf "schema too deep")

/-- `compile_node` with so many levels left. -/
def compileNode : Nat → Option Jv → Compiled Snode
  | 0 => tooDeep
  | 1 => compileLevel tooDeep tooDeep
  | left + 2 => compileLevel (compileNode (left + 1)) (compileNode left)

/-- The levels from the root's to the last one admitted. -/
def schemaLevels : Nat := 25

/-- `schema_compile` -/
def schemaCompile (schema : Option Jv) : Compiled Snode := compileNode schemaLevels schema

end GridcoreRunner.Schema
