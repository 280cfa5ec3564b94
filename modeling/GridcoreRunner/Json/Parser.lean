import Mathlib.Algebra.Order.Round
import Mathlib.Data.Int.Log
import Mathlib.Data.Rat.Floor
import GridcoreRunner.Json.Ascii

/-!
# The recursive-descent parser

`json_parse` and what it calls. A cursor is the bytes that are left to read. The
parser counts its nesting up to `128`; here `room` counts down from there.
Memory never runs out.
-/

namespace GridcoreRunner.Json

set_option autoImplicit false

/-- `jv`; the keys of an object stand next to its items, as in the C struct. -/
inductive Jv
  | null
  | bool (b : Bool)
  | num (d : ℚ)
  | str (s : Bytes)
  | arr (items : List Jv)
  | obj (keys : List Bytes) (items : List Jv)

def skipWs (s : Bytes) : Bytes := s.dropWhile isWs

def u8Emit (cp : Nat) : Bytes :=
  if cp < 0x80 then [UInt8.ofNat cp]
  else if cp < 0x800 then
    [UInt8.ofNat (0xC0 ||| cp >>> 6), UInt8.ofNat (0x80 ||| cp &&& 0x3F)]
  else if cp < 0x10000 then
    [UInt8.ofNat (0xE0 ||| cp >>> 12), UInt8.ofNat (0x80 ||| cp >>> 6 &&& 0x3F),
      UInt8.ofNat (0x80 ||| cp &&& 0x3F)]
  else
    [UInt8.ofNat (0xF0 ||| cp >>> 18), UInt8.ofNat (0x80 ||| cp >>> 12 &&& 0x3F),
      UInt8.ofNat (0x80 ||| cp >>> 6 &&& 0x3F), UInt8.ofNat (0x80 ||| cp &&& 0x3F)]

def hex4 (a b c d : UInt8) : Option Nat :=
  (hexDigit a).bind fun x => (hexDigit b).bind fun y =>
    (hexDigit c).bind fun z => (hexDigit d).map fun w => ((x * 16 + y) * 16 + z) * 16 + w

def isHigh (cp : Nat) : Bool := 0xD800 ≤ cp && cp ≤ 0xDBFF
def isLow (cp : Nat) : Bool := 0xDC00 ≤ cp && cp ≤ 0xDFFF

/-- The character a surrogate pair stands for. -/
def joinPair (cp lo : Nat) : Nat := 0x10000 + ((cp - 0xD800) <<< 10) + (lo - 0xDC00)

/-- `utf8_seq`: the length of the sequence the text begins with, or zero. -/
def utf8Seq (s : Bytes) : Nat :=
  match s with
  | [] => 0
  | c :: _ =>
      let len := if c < 0x80 then 1 else if c &&& 0xE0 = 0xC0 then 2
        else if c &&& 0xF0 = 0xE0 then 3 else if c &&& 0xF8 = 0xF0 then 4 else 0
      if len = 0 ∨ s.length < len then 0
      else if (s.take len).tail.any fun x => x &&& 0xC0 != 0x80 then 0
      else
        let c1 := if len > 1 then s.getD 1 0 else 0
        if len = 2 ∧ c < 0xC2 then 0
        else if len = 3 ∧ c = 0xE0 ∧ c1 < 0xA0 then 0
        else if len = 3 ∧ c = 0xED ∧ c1 ≥ 0xA0 then 0
        else if len = 4 ∧ c = 0xF0 ∧ c1 < 0x90 then 0
        else if len = 4 ∧ (c > 0xF4 ∨ c = 0xF4 ∧ c1 ≥ 0x90) then 0
        else len

/-- What `parse_string` writes for the escapes of one letter. -/
def unescape (e : UInt8) : Option UInt8 :=
  if e = quote then some quote
  else if e = backslash then some backslash
  else if e = slash then some slash
  else if e = letterB then some 0x08
  else if e = letterF then some 0x0c
  else if e = letterN then some 0x0a
  else if e = letterR then some 0x0d
  else if e = letterT then some 0x09
  else none

/-- The `\u` case of `parse_string`, past the `u`: the character and the rest. -/
def unicodeEscape : Bytes → Option (Nat × Bytes)
  | a :: b :: c :: d :: s =>
      (hex4 a b c d).bind fun cp =>
        if cp = 0 then none
        else if isHigh cp then
          match s with
          | back :: u :: a' :: b' :: c' :: d' :: s' =>
              if back = backslash ∧ u = letterU then
                (hex4 a' b' c' d').bind fun lo =>
                  if isLow lo then some (joinPair cp lo, s') else none
              else none
          | _ => none
        else if isLow cp then none
        else some (cp, s)
  | _ => none

/-- The loop of `parse_string`; each round reads at least one byte, so the length
of the text is enough rounds. -/
def stringLoop : Nat → Bytes → Bytes → Option (Bytes × Bytes)
  | 0, _, _ => none
  | _ + 1, [], _ => none
  | rounds + 1, ch :: s, out =>
      if ch = quote then some (out, s)
      else if ch = backslash then
        match s with
        | [] => none
        | e :: s =>
            if e = letterU then
              (unicodeEscape s).bind fun (cp, s) => stringLoop rounds s (out ++ u8Emit cp)
            else (unescape e).bind fun b => stringLoop rounds s (out ++ [b])
      else if ch < 0x20 then none
      else if ch < 0x80 then stringLoop rounds s (out ++ [ch])
      else
        let len := utf8Seq (ch :: s)
        if len = 0 then none
        else stringLoop rounds ((ch :: s).drop len) (out ++ (ch :: s).take len)

/-- `parse_string`, the cursor at the opening quote. -/
def parseString : Bytes → Option (Bytes × Bytes)
  | [] => none
  | c :: s => if c = quote then stringLoop s.length s [] else none

/-- The value of a run of decimal digits. -/
def decimal (digits : Bytes) : Nat :=
  digits.foldl (fun value c => value * 10 + (c.toNat - 0x30)) 0

/-- The number a numeral spells. -/
def numeralValue (text : Bytes) : ℚ :=
  let body := text.dropWhile (· == minus)
  let whole := body.takeWhile isDigit
  let tail := body.dropWhile isDigit
  let fraction := if tail.head? = some dot then tail.tail.takeWhile isDigit else []
  let power := (tail.dropWhile fun c => c == dot || isDigit c).tail
  let exponent : ℤ :=
    if power.head? = some minus then -(decimal power.tail : ℤ)
    else if power.head? = some plus then decimal power.tail
    else decimal power
  let size : ℚ := decimal (whole ++ fraction) * (10 : ℚ) ^ (exponent - fraction.length)
  if text.head? = some minus then -size else size

/-- The nearest multiple of `unit`, the even one of two. -/
def roundTo (unit q : ℚ) : ℚ :=
  let scaled := q / unit
  let below := ⌊scaled⌋
  let up := if scaled - below < 1 / 2 then below
    else if scaled - below > 1 / 2 then below + 1
    else if below % 2 = 0 then below else below + 1
  up * unit

/-- The exponent of the last of the 53 bits of a normal double near `q`. -/
def lastBit (q : ℚ) : ℤ := Int.log 2 |q| - 52

/-- `strtod` of a numeral: the nearest double, and whether it set `ERANGE`. It
does on overflow, and on a result below the normal range that is not exact. -/
def strtod (text : Bytes) : ℚ × Bool :=
  let q := numeralValue text
  let d := roundTo ((2 : ℚ) ^ max (lastBit q) (-1074)) q
  let overflow := decide ((2 : ℚ) ^ (1024 : ℕ) ≤ |d|)
  let underflow := decide (d ≠ q ∧ |roundTo ((2 : ℚ) ^ lastBit q) q| < (2 : ℚ) ^ (-1022 : ℤ))
  (d, overflow || underflow)

/-- The double nearest to `1.7e308`. -/
def doubleLimit : ℚ := 4258857765019067 * 2 ^ 972

/-- What `parse_number` asks of the spelling it has scanned. -/
def inRange (text : Bytes) : Bool :=
  let (d, erange) := strtod text
  !erange && decide (-doubleLimit < d) && decide (d < doubleLimit)

/-- `do { p++; } while (digit)`, where a digit has to stand. -/
def skipDigits : Bytes → Option Bytes
  | [] => none
  | c :: s => if isDigit c then some (s.dropWhile isDigit) else none

def skipSign (sign : UInt8 → Bool) : Bytes → Bytes
  | [] => []
  | c :: s => if sign c then s else c :: s

def skipWhole : Bytes → Option Bytes
  | [] => none
  | c :: s =>
      if c = zero then
        match s with
        | [] => some []
        | d :: s => if isDigit d then none else some (d :: s)
      else skipDigits (c :: s)

def skipFraction : Bytes → Option Bytes
  | [] => some []
  | c :: s => if c = dot then skipDigits s else some (c :: s)

def skipExponent : Bytes → Option Bytes
  | [] => some []
  | c :: s =>
      if c = letterE ∨ c = capitalE then
        skipDigits (skipSign (fun c => c == plus || c == minus) s)
      else some (c :: s)

def parseNumber (start : Bytes) : Option (Jv × Bytes) :=
  (skipWhole (skipSign (· == minus) start)).bind fun p =>
    (skipFraction p).bind fun p =>
      (skipExponent p).bind fun p =>
        let text := start.take (start.length - p.length)
        if inRange text then some (.num (strtod text).1, p) else none

/-- The two containers. -/
inductive Lid
  | brace | bracket
deriving DecidableEq, Repr

def Lid.opener : Lid → UInt8
  | .brace => lbrace
  | .bracket => lbracket

def Lid.closer : Lid → UInt8
  | .brace => rbrace
  | .bracket => rbracket

def Lid.jv : Lid → List Bytes → List Jv → Jv
  | .brace, keys, items => .obj keys items
  | .bracket, _, items => .arr items

/-- A member's name and colon. `keyset_insert` answers `0` for a name it has. -/
def parseKey (s : Bytes) (keys : List Bytes) : Option (List Bytes × Bytes) :=
  (parseString (skipWs s)).bind fun (key, s) =>
    if key ∈ keys then none
    else
      match skipWs s with
      | [] => none
      | c :: s => if c = colon then some (keys ++ [key], s) else none

/-- `if (v->type == J_OBJ)`: an array has no names to read. -/
def parseLabel : Lid → Bytes → List Bytes → Option (List Bytes × Bytes)
  | .brace, s, keys => parseKey s keys
  | .bracket, s, keys => some (keys, s)

/-- The `for` of `parse_container`; `value` is `parse_value` one level down. Each
round reads at least one byte. -/
def containerLoop (value : Bytes → Option (Jv × Bytes)) (lid : Lid) :
    Nat → Bytes → List Bytes → List Jv → Option (Jv × Bytes)
  | 0, _, _, _ => none
  | rounds + 1, s, keys, items =>
      (parseLabel lid s keys).bind fun (keys, s) =>
        (value s).bind fun (item, s) =>
          match skipWs s with
          | [] => none
          | c :: s =>
              if c = comma then containerLoop value lid rounds s keys (items ++ [item])
              else if c = lid.closer then some (lid.jv keys (items ++ [item]), s)
              else none

/-- `parse_container`, past the opening byte. -/
def parseContainer (value : Bytes → Option (Jv × Bytes)) (lid : Lid) (s : Bytes) :
    Option (Jv × Bytes) :=
  if (skipWs s).head? = some lid.closer then some (lid.jv [] [], (skipWs s).tail)
  else containerLoop value lid s.length (skipWs s) [] []

def maxDepth : Nat := 128

/-- `parse_value`; `room` is `maxDepth - depth`. -/
def parseValue : Nat → Bytes → Option (Jv × Bytes)
  | 0, _ => none
  | room + 1, s =>
      match skipWs s with
      | [] => none
      | ch :: s =>
          if ch = lbrace then parseContainer (parseValue room) .brace s
          else if ch = lbracket then parseContainer (parseValue room) .bracket s
          else if ch = quote then (parseString (ch :: s)).map fun (text, s) => (.str text, s)
          else if trueText <+: ch :: s then some (.bool true, (ch :: s).drop 4)
          else if falseText <+: ch :: s then some (.bool false, (ch :: s).drop 5)
          else if nullText <+: ch :: s then some (.null, (ch :: s).drop 4)
          else if ch = minus ∨ isDigit ch then parseNumber (ch :: s)
          else none

def jsonParse (s : Bytes) : Option Jv :=
  (parseValue maxDepth s).bind fun (v, rest) =>
    match skipWs rest with
    | [] => some v
    | _ :: _ => none

end GridcoreRunner.Json
