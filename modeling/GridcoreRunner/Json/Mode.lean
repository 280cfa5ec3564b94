import GridcoreRunner.Json.Parser

/-!
# The incremental validator of `json_mode`

`jsonv` and its functions. The container stack is a list, the innermost first, and
`depth` is its length. A closing tail is written into a buffer of `cap` bytes.
-/

namespace GridcoreRunner.Json

set_option autoImplicit false

/-- The micro-states of the machine. -/
inductive St
  | start | value | keyOrEnd | keyExpect | key | colon | string | after | arrFirst
  | numMinus | numZero | numInt | numFrac0 | numFrac | numExp0 | numExp1 | numExp
  | lit | done
deriving DecidableEq, Repr

/-- `LITS`. -/
def LITS : Nat → Bytes
  | 0 => trueText
  | 1 => falseText
  | _ => nullText

structure Jsonv where
  stack : List Lid
  st : St
  sub : Nat
  lit : Nat
  done : Bool
  esc : Nat

/-- `json_escape_hex`: `sub` and `esc` after the digit. -/
def jsonEscapeHex (sub esc : Nat) (c : UInt8) : Option (Nat × Nat) :=
  (hexDigit c).bind fun d =>
    let low := decide (8 ≤ sub)
    let nth := sub - if low then 8 else 2
    let val := ((if nth ≠ 0 then esc else 0) * 16 + d) % 2 ^ 16
    if low ∧ nth = 0 ∧ d ≠ 0xD then none
    else if low ∧ nth = 1 ∧ (val < 0xDC ∨ val > 0xDF) then none
    else if ¬low ∧ nth = 1 ∧ val ≥ 0xDC ∧ val ≤ 0xDF then none
    else if nth < 3 then some (sub + 1, val)
    else if ¬low ∧ val = 0 then none
    else some (if ¬low ∧ isHigh val then 6 else 0, val)

/-- The first `if` pair of `json_escape_close`: the digits that are missing, and
`sub` after them. -/
def closeDigits (sub esc : Nat) : Bytes × Nat :=
  let nth := sub - 2
  let cp := ((if nth ≠ 0 then esc else 0) <<< (4 * (4 - nth))) % 2 ^ 16
  let (pad, cp) := if cp = 0 then (List.replicate (3 - nth) zero ++ [one], 1)
    else (List.replicate (4 - nth) zero, cp)
  (pad, if isHigh cp then 6 else 0)

/-- The low half of a pair, from wherever it was left. -/
def closeLow (sub : Nat) : Bytes :=
  let slashed := if sub = 6 then [backslash] else []
  let lettered := if sub = 6 ∨ sub = 7 then [letterU] else []
  let from_ := if sub = 6 ∨ sub = 7 then 8 else sub
  let digits := if 8 ≤ from_ ∧ from_ ≤ 11 then [capitalD, capitalC, zero, zero].drop (from_ - 8)
    else []
  slashed ++ lettered ++ digits

/-- `json_escape_close`. -/
def jsonEscapeClose (sub esc : Nat) : Bytes :=
  if sub = 1 then [letterN]
  else if 2 ≤ sub ∧ sub ≤ 5 then (closeDigits sub esc).1 ++ closeLow (closeDigits sub esc).2
  else closeLow sub

def jsonvInit : Jsonv :=
  { stack := [], st := .start, sub := 0, lit := 0, done := false, esc := 0 }

def jsonvInitAny : Jsonv := { jsonvInit with st := .value }

def jsonvValueEnd (v : Jsonv) : Bool :=
  v.done || v.stack.isEmpty && decide (v.st = .numZero ∨ v.st = .numInt ∨ v.st = .numFrac ∨
    v.st = .numExp)

/-- `sizeof(v->stack)`. -/
def stackSize : Nat := 200

def push (v : Jsonv) (lid : Lid) : Option Jsonv :=
  if stackSize ≤ v.stack.length then none else some { v with stack := lid :: v.stack }

def pop (v : Jsonv) : Jsonv := { v with stack := v.stack.tail }

def valueDone (v : Jsonv) : Jsonv :=
  if v.stack = [] then { v with st := .done, done := true } else { v with st := .after }

@[simp] theorem value_done_stack (v : Jsonv) : (valueDone v).stack = v.stack := by
  unfold valueDone
  split_ifs <;> rfl

/-- The case `S_VALUE`. -/
def feedValue (v : Jsonv) (c : UInt8) : Option Jsonv :=
  if isWs c then some v
  else if c = lbrace then push { v with st := .keyOrEnd } .brace
  else if c = lbracket then push { v with st := .arrFirst } .bracket
  else if c = quote then some { v with st := .string, sub := 0 }
  else if c = minus then some { v with st := .numMinus }
  else if c = zero then some { v with st := .numZero }
  else if one ≤ c ∧ c ≤ 0x39 then some { v with st := .numInt }
  else if c = letterT then some { v with st := .lit, lit := 0, sub := 1 }
  else if c = letterF then some { v with st := .lit, lit := 1, sub := 1 }
  else if c = letterN then some { v with st := .lit, lit := 2, sub := 1 }
  else none

/-- The letters that may follow a backslash, but for `u`. -/
def shortEscape (c : UInt8) : Bool :=
  c == quote || c == backslash || c == slash || c == letterB || c == letterF ||
    c == letterN || c == letterR || c == letterT

/-- The cases `S_KEY` and `S_STRING`. -/
def feedString (v : Jsonv) (c : UInt8) : Option Jsonv :=
  if v.sub = 1 then
    if shortEscape c then some { v with sub := 0 }
    else if c = letterU then some { v with sub := 2 }
    else none
  else if v.sub = 6 then if c ≠ backslash then none else some { v with sub := 7 }
  else if v.sub = 7 then if c ≠ letterU then none else some { v with sub := 8 }
  else if 2 ≤ v.sub then
    (jsonEscapeHex v.sub v.esc c).map fun (sub, esc) => { v with sub := sub, esc := esc }
  else if c = quote then
    if v.st = .key then some { v with st := .colon } else some (valueDone v)
  else if c = backslash then some { v with sub := 1 }
  else if 0x20 ≤ c then some v
  else none

/-- The case `S_LIT`. -/
def feedLiteral (v : Jsonv) (c : UInt8) : Option Jsonv :=
  if (LITS v.lit)[v.sub]? = some c then
    let v := { v with sub := v.sub + 1 }
    some (if (LITS v.lit).length = v.sub then valueDone v else v)
  else none

/-- `feed_byte`: the state after the byte, and whether the byte ended a number and
has still to be read. -/
def feedByte (v : Jsonv) (c : UInt8) : Option (Jsonv × Bool) :=
  let read (v : Option Jsonv) : Option (Jsonv × Bool) := v.map fun v => (v, false)
  let ended : Option (Jsonv × Bool) := some (valueDone v, true)
  match v.st with
  | .start => read (if c = lbrace then push { v with st := .keyOrEnd } .brace else none)
  | .arrFirst => read (if c = rbracket then some (valueDone (pop v)) else feedValue v c)
  | .value => read (feedValue v c)
  | .keyOrEnd =>
      read (if isWs c then some v
        else if c = quote then some { v with st := .key, sub := 0 }
        else if c = rbrace then some (valueDone (pop v))
        else none)
  | .keyExpect =>
      read (if isWs c then some v
        else if c = quote then some { v with st := .key, sub := 0 }
        else none)
  | .key => read (feedString v c)
  | .string => read (feedString v c)
  | .colon =>
      read (if isWs c then some v
        else if c = colon then some { v with st := .value }
        else none)
  | .after =>
      let top := v.stack.head?
      read (if isWs c then some v
        else if c = comma ∧ top = some .brace then some { v with st := .keyExpect }
        else if c = comma ∧ top = some .bracket then some { v with st := .value }
        else if c = rbrace ∧ top = some .brace then some (valueDone (pop v))
        else if c = rbracket ∧ top = some .bracket then some (valueDone (pop v))
        else none)
  | .numMinus =>
      read (if c = zero then some { v with st := .numZero }
        else if one ≤ c ∧ c ≤ 0x39 then some { v with st := .numInt }
        else none)
  | .numZero =>
      if c = dot then read (some { v with st := .numFrac0 })
      else if c = letterE ∨ c = capitalE then read (some { v with st := .numExp0 })
      else ended
  | .numInt =>
      if isDigit c then read (some v)
      else if c = dot then read (some { v with st := .numFrac0 })
      else if c = letterE ∨ c = capitalE then read (some { v with st := .numExp0 })
      else ended
  | .numFrac0 => read (if isDigit c then some { v with st := .numFrac } else none)
  | .numFrac =>
      if isDigit c then read (some v)
      else if c = letterE ∨ c = capitalE then read (some { v with st := .numExp0 })
      else ended
  | .numExp0 =>
      read (if c = plus ∨ c = minus then some { v with st := .numExp1 }
        else if isDigit c then some { v with st := .numExp }
        else none)
  | .numExp1 => read (if isDigit c then some { v with st := .numExp } else none)
  | .numExp => if isDigit c then read (some v) else ended
  | .lit => read (feedLiteral v c)
  | .done => none

/-- One round of `jsonv_feed`. -/
def feedRound (v : Jsonv) (c : UInt8) : Option Jsonv :=
  (feedByte v c).bind fun (v, again) =>
    if again then (feedByte v c).map fun (v, _) => v else some v

def jsonvFeed (v : Jsonv) (s : Bytes) : Option Jsonv := s.foldlM feedRound v

/-- The `if`s of `jsonv_close`, in their order: what each writes, and the state
after it. -/
def closeString (v : Jsonv) : Bytes × Jsonv :=
  if v.st = .key then
    (jsonEscapeClose v.sub v.esc ++ [quote], { v with st := .colon })
  else if v.st = .string then (jsonEscapeClose v.sub v.esc ++ [quote], valueDone v)
  else ([], v)

def closeColon (v : Jsonv) : Bytes × Jsonv :=
  if v.st = .colon then ([colon], { v with st := .value }) else ([], v)

def closeKey (v : Jsonv) : Bytes × Jsonv :=
  if v.st = .keyExpect then ([quote, underscore, quote, colon], { v with st := .value })
  else ([], v)

def closeLiteral (v : Jsonv) : Bytes × Jsonv :=
  if v.st = .lit then ((LITS v.lit).drop v.sub, valueDone v) else ([], v)

def closeNumber (v : Jsonv) : Bytes × Jsonv :=
  if v.st = .numMinus ∨ v.st = .numFrac0 ∨ v.st = .numExp0 ∨ v.st = .numExp1 then
    ([zero], valueDone v)
  else ([], v)

def closeWhole (v : Jsonv) : Bytes × Jsonv :=
  if v.st = .numZero ∨ v.st = .numInt ∨ v.st = .numFrac ∨ v.st = .numExp then ([], valueDone v)
  else ([], v)

def closeValue (v : Jsonv) : Bytes × Jsonv :=
  if v.st = .value ∨ v.st = .arrFirst then (nullText, valueDone v) else ([], v)

/-- The closing `while`. -/
def closeContainers (st : St) (done : Bool) : List Lid → Bytes
  | [] => []
  | top :: stack =>
      if done = false ∧ (st = .after ∨ st = .keyOrEnd) then
        let v := valueDone { jsonvInit with stack := stack, st := st, done := done }
        top.closer :: closeContainers v.st v.done stack
      else []

/-- The bytes `jsonv_close` emits. -/
def closingTail (v : Jsonv) : Bytes :=
  if v.st = .start ∨ v.done then []
  else
    let (string, v) := closeString v
    let (colon, v) := closeColon v
    let (key, v) := closeKey v
    let (literal, v) := closeLiteral v
    let (number, v) := closeNumber v
    let (_, v) := closeWhole v
    let (value, v) := closeValue v
    string ++ colon ++ key ++ literal ++ number ++ value ++ closeContainers v.st v.done v.stack

/-- `jsonv_close`: `EMIT` drops what does not fit. -/
def jsonvClose (v : Jsonv) (cap : Nat) : Bytes := (closingTail v).take (cap - 1)

end GridcoreRunner.Json
